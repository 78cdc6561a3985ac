import NxgtData.GridFs.Chunks

/-!
`writeChunks` as it runs: pieces of any size are copied into the chunk under way, full chunks
go into a batch, and a batch into the collection. What it stores is the file's slices, numbered.
-/
namespace NxgtData.GridFs.Stored

variable {β : Type}

/-- A chunk document, without its `_id`. -/
structure Doc (β : Type) where
  filesId : String
  n : Nat
  data : List β
  deriving DecidableEq

/-- How many chunk documents go in one insert. -/
def batchSize : Nat := 16

/-- `writeChunks`'s variables between two pieces; `held` is its buffer as far as it is filled. -/
structure Writer (β : Type) (size : ChunkSize) where
  length : Nat
  n : Nat
  held : List β
  batch : List (Doc β)
  inserted : List (Doc β)
  room : held.length < size

namespace Writer

variable {size : ChunkSize} (filesId : String)

def start (size : ChunkSize) : Writer β size where
  length := 0
  n := 0
  held := []
  batch := []
  inserted := []
  room := size.2

def flushBatch (w : Writer β size) : Writer β size :=
  if w.batch.isEmpty then w else { w with batch := [], inserted := w.inserted ++ w.batch }

/-- The chunk that is held goes into the batch. -/
def emit (w : Writer β size) (held : List β) : Writer β size :=
  let w : Writer β size :=
    { w with
      batch := w.batch ++ [{ filesId, n := w.n, data := held }], n := w.n + 1, held := []
      room := size.2 }
  if w.batch.length ≥ batchSize then w.flushBatch else w

/-- Copies a piece into the chunks, from one to the next. -/
def copy (w : Writer β size) (piece : List β) : Writer β size :=
  if piece.length = 0 then w
  else
    let take := min (size - w.held.length) piece.length
    if full : w.held.length + take = size then
      copy (w.emit filesId (w.held ++ piece.take take)) (piece.drop take)
    else
      copy
        { w with
          held := w.held ++ piece.take take
          room := by
            have room := w.room
            rw [List.length_append, List.length_take]
            omega }
        (piece.drop take)
termination_by piece.length
decreasing_by
  all_goals
    have room := w.room
    rw [List.length_drop]
    omega

end Writer

/-- The chunk documents that are stored, and the file's length. -/
def writeChunks (size : ChunkSize) (filesId : String) (pieces : List (List β)) :
    List (Doc β) × Nat :=
  let w := pieces.foldl
    (fun (w : Writer β size) piece =>
      { w with length := w.length + piece.length }.copy filesId piece)
    (.start size)
  let w := if w.held.length > 0 then w.emit filesId w.held else w
  let w := w.flushBatch
  (w.inserted, w.length)

/-! What is stored. -/

/-- The chunks that a file of some length is cut into. -/
def chunkCount (size : ChunkSize) (length : Nat) : Nat := (length + size - 1) / size

theorem chunkCount_eq {size : ChunkSize} {length n rest : Nat} (place : n * size + rest = length)
    (room : rest < size) : chunkCount size length = if 0 < rest then n + 1 else n := by
  have pos := size.2
  rw [chunkCount]
  split
  next some_ =>
    refine Nat.div_eq_of_lt_le ?_ ?_
    · rw [Nat.succ_mul]
      omega
    · rw [Nat.succ_mul, Nat.succ_mul]
      omega
  next none_ =>
    refine Nat.div_eq_of_lt_le (by omega) ?_
    rw [Nat.succ_mul]
    omega

/-- Chunk `n` of a file. -/
def chunkOf (size : ChunkSize) (filesId : String) (bytes : List β) (n : Nat) : Doc β :=
  { filesId, n, data := sliceOf size bytes n }

namespace Writer

variable {size : ChunkSize} {filesId : String}

/-- The documents so far, whether inserted or not. -/
def docs (w : Writer β size) : List (Doc β) := w.inserted ++ w.batch

theorem docs_flushBatch (w : Writer β size) : w.flushBatch.docs = w.docs := by
  rw [flushBatch]
  split
  · rfl
  · rw [docs, docs, List.append_nil]

theorem flushBatch_inserted (w : Writer β size) : w.flushBatch.inserted = w.docs := by
  rw [flushBatch]
  split
  next empty => rw [docs, List.isEmpty_iff.mp empty, List.append_nil]
  next => rfl

theorem flushBatch_keeps (w : Writer β size) : w.flushBatch.n = w.n ∧
    w.flushBatch.held = w.held ∧ w.flushBatch.length = w.length := by
  rw [flushBatch]
  split <;> exact ⟨rfl, rfl, rfl⟩

/-- A chunk more, and nothing held. -/
theorem emit_spec (w : Writer β size) (held : List β) :
    (w.emit filesId held).docs = w.docs ++ [{ filesId, n := w.n, data := held }] ∧
      (w.emit filesId held).n = w.n + 1 ∧ (w.emit filesId held).held = [] ∧
      (w.emit filesId held).length = w.length := by
  rw [emit]
  split
  · obtain ⟨n, held_, length⟩ := flushBatch_keeps
      ({ w with
         batch := w.batch ++ [{ filesId, n := w.n, data := held }], n := w.n + 1, held := []
         room := size.2 } : Writer β size)
    rw [docs_flushBatch, n, held_, length]
    exact ⟨(List.append_assoc _ _ _).symm, rfl, rfl, rfl⟩
  · exact ⟨(List.append_assoc _ _ _).symm, rfl, rfl, rfl⟩

/-- After some bytes, the full chunks are documents and the rest is held. -/
structure Holds (filesId : String) (bytes : List β) (w : Writer β size) : Prop where
  docs : w.docs = (List.range w.n).map (chunkOf size filesId bytes)
  held : w.held = bytes.drop (w.n * size)
  place : w.n * size + w.held.length = bytes.length

theorem chunks_append {bytes : List β} (more : List β) {n : Nat} (full : n * size ≤ bytes.length) :
    (List.range n).map (chunkOf size filesId (bytes ++ more)) =
      (List.range n).map (chunkOf size filesId bytes) := by
  refine List.map_congr_left fun k mem => ?_
  have inside : (k + 1) * size ≤ n * size := Nat.mul_le_mul_right _ (List.mem_range.mp mem)
  rw [chunkOf, sliceOf_append (by omega), chunkOf]

theorem Holds.copy {bytes : List β} {w : Writer β size} (holds : w.Holds filesId bytes)
    (piece : List β) : (w.copy filesId piece).Holds filesId (bytes ++ piece) := by
  induction count : piece.length using Nat.strongRecOn generalizing w bytes piece with
  | ind n ih =>
  subst count
  have room := w.room
  have place := holds.place
  rw [Writer.copy]
  split
  next none_ => rwa [List.length_eq_zero_iff.mp none_, List.append_nil]
  next some_ =>
  dsimp only
  set take := min (size - w.held.length) piece.length with taken
  have length : (piece.take take).length = take := by
    rw [List.length_take]
    omega
  have split_ : bytes ++ piece = bytes ++ piece.take take ++ piece.drop take := by
    rw [List.append_assoc, List.take_append_drop]
  have held : w.held ++ piece.take take = (bytes ++ piece.take take).drop (w.n * size) := by
    rw [List.drop_append_of_le_length (by omega), ← holds.held]
  have docs : w.docs = (List.range w.n).map (chunkOf size filesId (bytes ++ piece.take take)) := by
    rw [chunks_append _ (by omega), holds.docs]
  rw [split_]
  split
  next full =>
    refine ih (piece.drop take).length (by rw [List.length_drop]; omega) ?_ _ rfl
    obtain ⟨docs', n', held', -⟩ := @emit_spec _ _ filesId w (w.held ++ piece.take take)
    have whole : (w.held ++ piece.take take).length = size := by
      rw [List.length_append, length, full]
    have next : (w.n + 1) * (size : Nat) = (bytes ++ piece.take take).length := by
      rw [Nat.succ_mul, List.length_append, length]
      omega
    refine ⟨?_, ?_, ?_⟩
    · rw [docs', n', List.range_succ, List.map_append, List.map_singleton, docs, chunkOf, sliceOf,
        ← held, List.take_of_length_le (Nat.le_of_eq whole)]
    · rw [held', n', next, List.drop_length]
    · rw [held', n', next, List.length_nil, Nat.add_zero]
  next partial_ =>
    refine ih (piece.drop take).length (by rw [List.length_drop]; omega) ?_ _ rfl
    refine ⟨docs, held, ?_⟩
    dsimp only
    rw [List.length_append, List.length_append, length]
    omega

theorem copy_length (w : Writer β size) (piece : List β) :
    (w.copy filesId piece).length = w.length := by
  induction count : piece.length using Nat.strongRecOn generalizing w piece with
  | ind n ih =>
  subst count
  have room := w.room
  rw [Writer.copy]
  split
  · rfl
  next some_ =>
  dsimp only
  split
  · rw [ih _ (by rw [List.length_drop]; omega) _ _ rfl]
    exact (emit_spec w _).2.2.2
  · rw [ih _ (by rw [List.length_drop]; omega) _ _ rfl]

end Writer

/-- `writeChunks` stores the chunks from 0 on that the length asks for, each the bytes of its
place, and answers the length. -/
theorem writeChunks_spec (size : ChunkSize) (filesId : String) (pieces : List (List β)) :
    writeChunks size filesId pieces =
      ((List.range (chunkCount size pieces.flatten.length)).map
        (chunkOf size filesId pieces.flatten), pieces.flatten.length) := by
  have copied : ∀ (w : Writer β size) (bytes : List β), w.Holds filesId bytes →
      w.length = bytes.length →
      ((pieces.foldl (fun (w : Writer β size) piece =>
        { w with length := w.length + piece.length }.copy filesId piece) w).Holds filesId
          (bytes ++ pieces.flatten)) ∧
      (pieces.foldl (fun (w : Writer β size) piece =>
        { w with length := w.length + piece.length }.copy filesId piece) w).length =
          (bytes ++ pieces.flatten).length := by
    induction pieces with
    | nil => exact fun w bytes holds length => by simpa using ⟨holds, length⟩
    | cons piece pieces ih =>
        intro w bytes holds length
        rw [List.foldl_cons, List.flatten_cons, ← List.append_assoc]
        refine ih _ _ (Writer.Holds.copy (w := { w with length := w.length + piece.length })
          ⟨holds.docs, holds.held, holds.place⟩ piece) ?_
        rw [Writer.copy_length, List.length_append, ← length]
  obtain ⟨holds, length⟩ := copied (.start size) []
    ⟨rfl, List.drop_nil.symm, by simp [Writer.start]⟩ rfl
  rw [List.nil_append] at holds length
  rw [writeChunks]
  generalize List.foldl _ _ pieces = w at holds length
  have room := w.room
  have place := holds.place
  split
  next some_ =>
    obtain ⟨docs, n, held, length'⟩ := @Writer.emit_spec _ _ filesId w w.held
    have count : chunkCount size pieces.flatten.length = w.n + 1 := by
      rw [chunkCount_eq place room, if_pos some_]
    rw [Writer.flushBatch_inserted, (Writer.flushBatch_keeps _).2.2, length', length, docs, count,
      List.range_succ, List.map_append, List.map_singleton, holds.docs]
    rw [chunkOf, sliceOf, ← holds.held, List.take_of_length_le (by omega)]
  next none_ =>
    have count : chunkCount size pieces.flatten.length = w.n := by
      rw [chunkCount_eq place room, if_neg none_]
    rw [Writer.flushBatch_inserted, (Writer.flushBatch_keeps _).2.2, length, count, holds.docs]

theorem lt_chunkCount {size : ChunkSize} {length n : Nat} :
    n < chunkCount size length ↔ n * size < length := by
  have pos := size.2
  rw [chunkCount, Nat.lt_iff_add_one_le, Nat.le_div_iff_mul_le pos, Nat.succ_mul]
  omega

/-- It stores what copying the bytes one after the other emits. -/
theorem writeChunks_eq (size : ChunkSize) (filesId : String) (pieces : List (List β)) :
    (writeChunks size filesId pieces).1 =
      (GridFs.writeChunks size pieces).mapIdx fun n data => { filesId, n, data } := by
  rw [writeChunks_spec]
  refine List.ext_getElem? fun n => ?_
  rw [List.getElem?_map, List.getElem?_mapIdx, writeChunks_get]
  by_cases asked : n * size < pieces.flatten.length
  · rw [List.getElem?_range (lt_chunkCount.mpr asked), if_pos asked]
    rfl
  · have past : (List.range (chunkCount size pieces.flatten.length)).length ≤ n := by
      rw [List.length_range]
      exact Nat.le_of_not_lt fun lt => asked (lt_chunkCount.mp lt)
    rw [List.getElem?_eq_none past, if_neg asked]
    rfl

end NxgtData.GridFs.Stored
