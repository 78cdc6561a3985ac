import Mathlib.Data.List.Induction
import Mathlib.Data.List.TakeDrop

/-!
How the bytes of a file are cut into chunks. Whatever pieces the source gives, chunk `n`
holds the bytes from `n * chunkSize` on, and only the last chunk may be shorter.
-/
namespace NxgtData.GridFs

variable {β : Type}

/-- A chunk size as a bucket's definition takes it: at least one byte. -/
abbrev ChunkSize := { n : Nat // 0 < n }

/-- The chunks emitted, and the bytes held for the one that follows. -/
structure Filling (β : Type) where
  emitted : List (List β) := []
  held : List β := []
deriving DecidableEq

/-- One more byte: a chunk that is full is emitted. -/
def Filling.put (size : ChunkSize) (f : Filling β) (b : β) : Filling β :=
  if (f.held ++ [b]).length = size then { emitted := f.emitted ++ [f.held ++ [b]] }
  else { f with held := f.held ++ [b] }

def fill (size : ChunkSize) (bytes : List β) : Filling β := bytes.foldl (Filling.put size) {}

/-- The data of the chunks that `writeChunks` inserts, in their order. The pieces are
copied into the chunks one byte after the other here. -/
def writeChunks (size : ChunkSize) (pieces : List (List β)) : List (List β) :=
  let filled := fill size pieces.flatten
  if filled.held.isEmpty then filled.emitted else filled.emitted ++ [filled.held]

/-- The bytes a reader expects in chunk `n`. -/
def sliceOf (size : ChunkSize) (bytes : List β) (n : Nat) : List β :=
  (bytes.drop (n * size)).take size

/-- The filling after some bytes: every full chunk is emitted, and the rest is held. -/
structure Filling.Holds (size : ChunkSize) (bytes : List β) (f : Filling β) : Prop where
  emitted : f.emitted = (List.range f.emitted.length).map (sliceOf size bytes)
  held : f.held = bytes.drop (f.emitted.length * size)
  length : f.emitted.length * size + f.held.length = bytes.length
  room : f.held.length < size

theorem sliceOf_append {size : ChunkSize} {bytes more : List β} {n : Nat}
    (full : (n + 1) * size ≤ bytes.length) :
    sliceOf size (bytes ++ more) n = sliceOf size bytes n := by
  have le : n * size + size ≤ bytes.length := by rwa [Nat.add_mul, Nat.one_mul] at full
  rw [sliceOf, sliceOf, List.drop_append_of_le_length (by omega),
    List.take_append_of_le_length (by rw [List.length_drop]; omega)]

theorem Filling.Holds.put {size : ChunkSize} {bytes : List β} {f : Filling β}
    (h : f.Holds size bytes) (b : β) : (f.put size b).Holds size (bytes ++ [b]) := by
  have length := h.length
  have held : f.held ++ [b] = (bytes ++ [b]).drop (f.emitted.length * size) := by
    rw [List.drop_append_of_le_length (by omega), ← h.held]
  have kept : (List.range f.emitted.length).map (sliceOf size (bytes ++ [b])) = f.emitted := by
    rw [h.emitted, List.length_map, List.length_range]
    refine List.map_congr_left fun n mem => sliceOf_append ?_
    have : (n + 1) * size ≤ f.emitted.length * size :=
      Nat.mul_le_mul_right _ (List.mem_range.mp mem)
    omega
  unfold Filling.put
  split
  next full =>
    have full : f.held.length + 1 = size := by simpa using full
    have next : (f.emitted.length + 1) * (size : Nat) = f.emitted.length * size + size := by
      rw [Nat.add_mul, Nat.one_mul]
    refine ⟨?_, ?_, ?_, size.2⟩
    · rw [List.length_append, List.length_singleton, List.range_succ, List.map_append, kept,
        List.map_singleton, sliceOf, ← held, List.take_of_length_le (by simp; omega)]
    · simp only [List.length_append, List.length_singleton]
      rw [next, List.drop_of_length_le (by simp; omega)]
    · simp only [List.length_append, List.length_singleton, List.length_nil]
      omega
  next partial_ =>
    have partial_ : f.held.length + 1 ≠ size := by simpa using partial_
    have room := h.room
    exact ⟨kept.symm, held, by simp; omega, by simp; omega⟩

theorem filled_holds (size : ChunkSize) (bytes : List β) :
    (fill size bytes).Holds size bytes := by
  induction bytes using List.reverseRecOn with
  | nil => exact ⟨rfl, List.drop_nil.symm, Nat.zero_mul _, size.2⟩
  | append_singleton bytes b ih =>
      rw [fill, List.foldl_append]
      exact ih.put b

theorem Filling.Holds.get {size : ChunkSize} {bytes : List β} {f : Filling β}
    (h : f.Holds size bytes) {n : Nat} (lt : n < f.emitted.length) :
    f.emitted[n]? = some (sliceOf size bytes n) := by
  rw [h.emitted, List.getElem?_map, List.getElem?_range lt, Option.map_some]

/-- Chunk `n` holds the bytes a reader expects there, for every chunk the length asks
for and for no other. -/
theorem writeChunks_get (size : ChunkSize) (pieces : List (List β)) (n : Nat) :
    (writeChunks size pieces)[n]? =
      if n * size < pieces.flatten.length then some (sliceOf size pieces.flatten n) else none := by
  have h := filled_holds size pieces.flatten
  have length := h.length
  have room := h.room
  have place : ∀ {i j : Nat}, i < j → i * (size : Nat) + size ≤ j * size := by
    intro i j lt
    have := Nat.mul_le_mul_right (size : Nat) (Nat.succ_le_of_lt lt)
    rwa [Nat.succ_mul] at this
  unfold writeChunks
  generalize fill size pieces.flatten = f at h length room
  dsimp only
  by_cases lt : n < f.emitted.length
  · have := place lt
    have needed : n * (size : Nat) < pieces.flatten.length := by
      have := size.2
      omega
    rw [if_pos needed]
    split
    · exact h.get lt
    · rw [List.getElem?_append_left lt, h.get lt]
  · split
    next none =>
      have none : f.held.length = 0 := by simpa using none
      have : f.emitted.length * (size : Nat) ≤ n * size := Nat.mul_le_mul_right _ (by omega)
      rw [if_neg (by omega), List.getElem?_eq_none (by omega)]
    next some =>
      have some : f.held.length ≠ 0 := by simpa using some
      rw [List.getElem?_append_right (by omega)]
      by_cases last : n = f.emitted.length
      · subst last
        rw [if_pos (by omega), Nat.sub_self, List.getElem?_cons_zero, sliceOf, ← h.held,
          List.take_of_length_le (by omega)]
      · have := place (show f.emitted.length < n by omega)
        rw [if_neg (by omega), List.getElem?_eq_none (by simp; omega)]

end NxgtData.GridFs
