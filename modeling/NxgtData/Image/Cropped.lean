import NxgtData.Image.CropPng

/-!
What `cropPng` comes to: the region's pixels of the image that the inflated rows stand for,
where they are as the header says as far as they are read, and a refusal otherwise.
-/
namespace NxgtData.Image

/-! Columns. -/

theorem range_succ_flatMap {α : Type} (f : Nat → List α) (n : Nat) :
    (List.range (n + 1)).flatMap f = f 0 ++ (List.range n).flatMap fun i => f (i + 1) := by
  rw [List.range_succ_eq_map, List.flatMap_cons, List.flatMap_map]

theorem range_flatMap_succ {α : Type} (f : Nat → List α) (n : Nat) :
    (List.range (n + 1)).flatMap f = (List.range n).flatMap f ++ f n := by
  rw [List.range_succ, List.flatMap_append, List.flatMap_singleton]

theorem write_append {done rest : Bytes} {a : UInt8} (at_ : Nat) (is : at_ = done.length)
    (v : UInt8) :
    write (done ++ a :: rest) at_ v = .ok (done ++ v :: rest) := by
  subst is
  rw [write, if_pos (by simp), List.set_append_right _ _ le_rfl, Nat.sub_self, List.set_cons_zero]

theorem three_first {l : Bytes} (long : 3 ≤ l.length) :
    ∃ a b c tail, l = a :: b :: c :: tail := by
  rcases l with _ | ⟨a, _ | ⟨b, _ | ⟨c, tail⟩⟩⟩
  · simp at long
  · simp at long
  · simp at long
  · exact ⟨a, b, c, tail, rfl⟩

/-- A widened row is written where the last one ended. -/
theorem widen_spec {row : Bytes} {samples channels x outRow : Nat}
    (grey : samples = 1 ∧ channels = 3 ∨ samples = 2 ∧ channels = 4) (count : Nat) {i : Nat}
    {done rest : Bytes} (place : outRow + i * channels = done.length)
    (room : count * channels ≤ rest.length) :
    widen row (1 + x * samples) samples channels outRow i count (done ++ rest) =
      .ok (done ++
        ((List.range count).flatMap fun j => pixelAt samples (row.drop 1) (x + (i + j))) ++
        rest.drop (count * channels)) := by
  induction count generalizing i done rest with
  | zero => simp [widen]
  | succ count ih =>
      have shift (j : Nat) : x + (i + (j + 1)) = x + (i + 1 + j) := by omega
      rw [widen, range_succ_flatMap]
      simp only [shift]
      obtain ⟨rfl, rfl⟩ | ⟨rfl, rfl⟩ := grey
      · obtain ⟨a, b, c, rest, rfl⟩ := three_first (by omega : 3 ≤ rest.length)
        have here : byte row (1 + x * 1 + i * 1) = byte (row.drop 1) (x + (i + 0)) := by
          rw [byte_drop]
          congr 1
          omega
        rw [write_append _ place, Except.bind, here, pixelAt, if_pos rfl]
        generalize byte (row.drop 1) (x + (i + 0)) = v
        rw [List.append_cons, write_append _ (by simp [place]), Except.bind, List.append_cons,
          write_append _ (by simp [place]), Except.bind, if_neg (by decide), List.append_cons,
          ih (by simp [Nat.succ_mul]; omega) (by simp at room ⊢; omega)]
        simp [Nat.succ_mul]
      · obtain ⟨a, b, c, tail, rfl⟩ := three_first (by omega : 3 ≤ rest.length)
        obtain ⟨d, rest, rfl⟩ := List.exists_cons_of_length_pos
          (by simp at room; omega : 0 < tail.length)
        have here : byte row (1 + x * 2 + i * 2) = byte (row.drop 1) (2 * (x + (i + 0))) := by
          rw [byte_drop]
          congr 1
          omega
        have alpha : byte row (1 + x * 2 + i * 2 + 1) =
            byte (row.drop 1) (2 * (x + (i + 0)) + 1) := by
          rw [byte_drop]
          congr 1
          omega
        rw [write_append _ place, Except.bind, here, pixelAt, if_neg (by decide), if_pos rfl]
        generalize byte (row.drop 1) (2 * (x + (i + 0))) = v
        rw [List.append_cons, write_append _ (by simp [place]), Except.bind, List.append_cons,
          write_append _ (by simp [place]), Except.bind, if_pos rfl, List.append_cons,
          write_append _ (by simp [place]), Except.bind, List.append_cons, alpha,
          ih (by simp [Nat.succ_mul]; omega) (by simp at room ⊢; omega)]
        simp [Nat.succ_mul]

theorem slices_flatMap (l : Bytes) (x m n : Nat) :
    ((List.range n).flatMap fun i => (l.drop ((x + i) * m)).take m) =
      (l.drop (x * m)).take (n * m) := by
  induction n with
  | zero => simp
  | succ n ih => rw [range_flatMap_succ, ih, Nat.add_mul, take_append_drop_take, Nat.succ_mul]

/-- The number of samples of each colour type that is read. -/
def Stored (samples : Nat) : Prop := samples = 1 ∨ samples = 2 ∨ samples = 3 ∨ samples = 4

theorem pixelAt_length {samples width x : Nat} {row : Bytes} (stored : Stored samples)
    (length : row.length = width * samples) (fits : x < width) :
    (pixelAt samples row x).length = channelsOf samples := by
  have inside : (x + 1) * samples ≤ row.length := length ▸ Nat.mul_le_mul_right _ fits
  rw [Nat.succ_mul] at inside
  obtain rfl | rfl | rfl | rfl := stored
  · rfl
  · rfl
  · simp [pixelAt, channelsOf]
    omega
  · simp [pixelAt, channelsOf]
    omega

theorem flatMap_length {α : Type} {f : Nat → List α} {n m : Nat}
    (each : ∀ i < n, (f i).length = m) : ((List.range n).flatMap f).length = n * m := by
  induction n with
  | zero => simp
  | succ n ih =>
      rw [range_flatMap_succ, List.length_append, ih fun i lt => each i (by omega),
        each n (by omega), Nat.succ_mul]

theorem regionRow_length {samples width : Nat} {row : Bytes} {region : Rect}
    (stored : Stored samples) (length : row.length = width * samples)
    (fits : region.x + region.width ≤ width) :
    (regionRow samples row region).length = region.width * channelsOf samples :=
  flatMap_length fun _ lt => pixelAt_length stored length (by omega)

/-- A row's columns are written as they come out, where the last row's ended. -/
theorem copyColumns_spec {row : Bytes} {region : Rect} {samples width outRow : Nat}
    (stored : Stored samples) (length : row.length = 1 + width * samples)
    (fits : region.x + region.width ≤ width) {done rest : Bytes} (place : outRow = done.length)
    (room : region.width * channelsOf samples ≤ rest.length) :
    copyColumns row region samples (done ++ rest) outRow =
      .ok (done ++ regionRow samples (row.drop 1) region ++
        rest.drop (region.width * channelsOf samples)) := by
  have copied (wide : samples = channelsOf samples)
      (whole : ∀ r x, pixelAt samples r x = (r.drop (x * samples)).take samples) :
      setAt (done ++ rest) outRow ((row.drop (1 + region.x * samples)).take
          (region.width * samples)) =
        .ok (done ++ regionRow samples (row.drop 1) region ++
          rest.drop (region.width * channelsOf samples)) := by
    have is : (row.drop (1 + region.x * samples)).take (region.width * samples) =
        regionRow samples (row.drop 1) region := by
      rw [regionRow, ← List.drop_drop, ← slices_flatMap]
      exact congrArg (List.flatMap · _) (funext fun i => (whole _ _).symm)
    have below : (row.drop 1).length = width * samples := by
      rw [List.length_drop]
      omega
    have long := regionRow_length stored below fits
    rw [is, place, setAt_ok (by rw [long, List.length_append]; omega), long, List.take_left,
      List.drop_append, List.drop_eq_nil_of_le (Nat.le_add_right _ _), List.nil_append,
      Nat.add_sub_cancel_left]
  have widened
      (grey : samples = 1 ∧ channelsOf samples = 3 ∨ samples = 2 ∧ channelsOf samples = 4) :
      widen row (1 + region.x * samples) samples (channelsOf samples) outRow 0 region.width
          (done ++ rest) =
        .ok (done ++ regionRow samples (row.drop 1) region ++
          rest.drop (region.width * channelsOf samples)) := by
    rw [widen_spec grey region.width (by omega) room, regionRow]
    simp only [Nat.zero_add]
  obtain rfl | rfl | rfl | rfl := stored
  · exact widened (.inl ⟨rfl, rfl⟩)
  · exact widened (.inr ⟨rfl, rfl⟩)
  · exact copied rfl fun r x => rfl
  · exact copied rfl fun r x => rfl

end NxgtData.Image
