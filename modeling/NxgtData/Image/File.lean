import NxgtData.Image.Safe

/-!
A PNG file: its header, any chunks with IDAT chunks among them, and IEND. Reading one finds the
header and the IDAT payloads, whatever the chunks between them are.
-/
namespace NxgtData.Image

structure FileChunk where
  type : Bytes
  data : Bytes
  crc : Bytes
  typed : type.length = 4
  checked : crc.length = 4
  short : data.length < 2 ^ 32

def FileChunk.bytes (c : FileChunk) : Bytes := setUint32 c.data.length ++ c.type ++ c.data ++ c.crc

/-- The colour type of a number of samples. -/
def colourOf (samples : Nat) : UInt8 :=
  if samples = 1 then 0 else if samples = 2 then 4 else if samples = 3 then 2 else 6

/-- A PNG of 8-bit samples that is not interlaced. -/
structure PngFile where
  header : PngHeader
  sound : header.Sound
  ihdr : FileChunk
  isHeader : ihdr.type = ascii "IHDR" ∧ ihdr.data =
    setUint32 header.width ++ setUint32 header.height ++ [8, colourOf header.samples, 0, 0, 0]
  chunks : List FileChunk
  inner : ∀ c ∈ chunks, c.type ≠ ascii "IEND"
  someData : ∃ c ∈ chunks, c.type = ascii "IDAT"
  iend : FileChunk
  isEnd : iend.type = ascii "IEND"

namespace PngFile

def bytes (file : PngFile) : Bytes :=
  pngSignature ++ file.ihdr.bytes ++ file.chunks.flatMap FileChunk.bytes ++ file.iend.bytes

/-- The payloads of the IDAT chunks. -/
def idat (file : PngFile) : List Bytes :=
  (file.chunks.filter fun c => c.type = ascii "IDAT").map FileChunk.data

end PngFile

theorem setUint32_length (n : Nat) : (setUint32 n).length = 4 := rfl

theorem uint32_setUint32 {n : Nat} (lt : n < 2 ^ 32) : uint32 (setUint32 n) = n := by
  simp only [uint32, setUint32, List.foldl_cons, List.foldl_nil, UInt8.toNat_ofNat']
  omega

/-- A chunk of a file is read where it stands. -/
theorem chunkAt_bytes {bytes rest : Bytes} {at_ : Nat} (c : FileChunk)
    (here : bytes.drop at_ = c.bytes ++ rest) :
    chunkAt bytes at_ = .ok ⟨c.type, c.data, at_ + 12 + c.data.length⟩ ∧
      bytes.drop (at_ + 12 + c.data.length) = rest := by
  have typed := c.typed
  have checked := c.checked
  have total : c.bytes.length = 12 + c.data.length := by
    simp only [FileChunk.bytes, List.length_append, setUint32_length]
    omega
  have lengths : bytes.length - at_ = 12 + c.data.length + rest.length := by
    have length := congrArg List.length here
    rwa [List.length_drop, List.length_append, total] at length
  have first : (bytes.drop at_).take 4 = setUint32 c.data.length := by
    simp only [here, FileChunk.bytes, List.append_assoc]
    exact List.take_left' (setUint32_length _)
  have second : bytes.drop (at_ + 4) = c.type ++ (c.data ++ (c.crc ++ rest)) := by
    rw [← List.drop_drop, here]
    simp only [FileChunk.bytes, List.append_assoc]
    exact List.drop_left' (setUint32_length _)
  have third : bytes.drop (at_ + 8) = c.data ++ (c.crc ++ rest) := by
    rw [show at_ + 8 = at_ + 4 + 4 from rfl, ← List.drop_drop, second]
    exact List.drop_left' typed
  refine ⟨?_, ?_⟩
  · rw [chunkAt, if_neg (by omega), view_ok (by omega) (by omega), Except.bind,
      Nat.add_sub_cancel_left, first]
    dsimp only
    rw [uint32_setUint32 c.short, if_neg (by omega), view_ok (by omega) (by omega), Except.bind,
      view_ok (by omega) (by omega), second, third, Nat.add_sub_cancel_left,
      show at_ + 8 - (at_ + 4) = 4 by omega, List.take_left' typed, List.take_left]
    rfl
  · rw [Nat.add_assoc, ← List.drop_drop, here, ← total, List.drop_left]

theorem samplesOf_colourOf {samples : Nat} (stored : Stored samples) :
    samplesOf (colourOf samples) = some samples := by
  obtain rfl | rfl | rfl | rfl := stored <;> rfl

theorem bytes_drop (file : PngFile) : file.bytes.drop 8 =
    file.ihdr.bytes ++ (file.chunks.flatMap FileChunk.bytes ++ file.iend.bytes) := by
  rw [PngFile.bytes, List.append_assoc, List.append_assoc]
  exact List.drop_left' rfl

/-- The header of a file is the one it was written with. -/
theorem readHeader_bytes (file : PngFile) {maxPixels : Option Num}
    (within : exceeds maxPixels (double ((file.header.width : ℚ) * file.header.height)) = false) :
    readHeader file.bytes maxPixels = .ok file.header := by
  obtain ⟨found, -⟩ := chunkAt_bytes file.ihdr (bytes_drop file)
  have sound := file.sound
  have wide := sound.wide
  have tall := sound.tall
  have width := sound.width
  have height := sound.height
  have signature : file.bytes.take 8 = pngSignature := by
    rw [PngFile.bytes, List.append_assoc, List.append_assoc]
    exact List.take_left' rfl
  have thirteen : file.ihdr.data.length = 13 := by
    rw [file.isHeader.2]
    rfl
  rw [readHeader, if_neg (not_not_intro signature), found, Except.bind]
  dsimp only
  rw [if_neg (by rw [file.isHeader.1]; simp [thirteen]), view_ok (by omega) (by omega), Except.bind,
    view_ok (by omega) (by omega), Except.bind, file.isHeader.2]
  have across : ((setUint32 file.header.width ++ setUint32 file.header.height ++
      [8, colourOf file.header.samples, 0, 0, 0]).drop 0).take (4 - 0) =
        setUint32 file.header.width := rfl
  have down : ((setUint32 file.header.width ++ setUint32 file.header.height ++
      [8, colourOf file.header.samples, 0, 0, 0]).drop 4).take (8 - 4) =
        setUint32 file.header.height := rfl
  have depth : byte (setUint32 file.header.width ++ setUint32 file.header.height ++
      [8, colourOf file.header.samples, 0, 0, 0]) 8 = 8 := rfl
  have interlaced : byte (setUint32 file.header.width ++ setUint32 file.header.height ++
      [8, colourOf file.header.samples, 0, 0, 0]) 12 = 0 := rfl
  have colour : byte (setUint32 file.header.width ++ setUint32 file.header.height ++
      [8, colourOf file.header.samples, 0, 0, 0]) 9 = colourOf file.header.samples := rfl
  rw [across, down, uint32_setUint32 (by omega), uint32_setUint32 (by omega),
    if_neg (by omega), within,
    if_neg (by decide), depth, if_neg (by decide), interlaced, if_neg (by decide), colour,
    samplesOf_colourOf sound.stored]

/-- The chunks are walked to IEND, the payloads in their order. -/
theorem idatFrom_chunks {bytes : Bytes} (iend : FileChunk) (isEnd : iend.type = ascii "IEND")
    (chunks : List FileChunk) (inner : ∀ c ∈ chunks, c.type ≠ ascii "IEND") {at_ : Nat}
    (sawData : Bool) (here : bytes.drop at_ = chunks.flatMap FileChunk.bytes ++ iend.bytes) :
    idatFrom bytes at_ sawData =
      ((chunks.filter fun c => c.type = ascii "IDAT").map FileChunk.data,
        if sawData || chunks.any fun c => c.type = ascii "IDAT" then .ok ()
        else .error (refuse "no IDAT chunk")) := by
  induction chunks generalizing at_ sawData with
  | nil =>
      obtain ⟨found, -⟩ := @chunkAt_bytes _ [] _ iend (by simpa using here)
      rw [idatFrom]
      split
      next refused => simp [found] at refused
      next c ok =>
        cases found.symm.trans ok
        dsimp only
        rw [isEnd, if_neg (by decide), if_pos rfl]
        simp
  | cons c chunks ih =>
      rw [List.flatMap_cons, List.append_assoc] at here
      obtain ⟨found, after⟩ := chunkAt_bytes c here
      have rest := fun sawData =>
        ih (fun c mem => inner c (List.mem_cons_of_mem _ mem)) sawData after
      rw [idatFrom]
      split
      next refused => simp [found] at refused
      next read ok =>
        cases found.symm.trans ok
        dsimp only
        by_cases data : c.type = ascii "IDAT"
        · rw [if_pos data, rest true]
          simp [data]
        · rw [if_neg data, if_neg (inner c List.mem_cons_self), rest sawData]
          simp [data]

theorem idatStream_bytes (file : PngFile) : idatStream file.bytes = (file.idat, .ok ()) := by
  obtain ⟨found, after⟩ := chunkAt_bytes file.ihdr (bytes_drop file)
  rw [idatStream, idatFrom]
  split
  next refused => simp [found] at refused
  next read ok =>
    cases found.symm.trans ok
    dsimp only
    rw [file.isHeader.1, if_neg (by decide), if_neg (by decide),
      idatFrom_chunks file.iend file.isEnd file.chunks file.inner false after]
    obtain ⟨c, mem, is⟩ := file.someData
    have some_ : (file.chunks.any fun c => c.type = ascii "IDAT") = true :=
      List.any_eq_true.mpr ⟨c, mem, decide_eq_true is⟩
    rw [some_]
    rfl

end NxgtData.Image
