import NxgtData.Image.Unfilter
import NxgtData.Lib.JsValue

/-!
A PNG's bytes: its chunks, its header, and the zlib stream its IDAT chunks hold. A read or a
write outside of an array is a fault of its own here, which no call ever ends with.
-/
namespace NxgtData.Image

inductive Code where
  | tooLarge
  | unsupportedType
  | undecodable
  | tooSmall
  | invalidCrop
  deriving DecidableEq

inductive Reason where
  | bytes
  | pixels
  | format
  | heicUnavailable
  | decode
  | dimensions
  | crop
  deriving DecidableEq

structure ImageError where
  code : Code
  reason : Reason
  message : String
  deriving DecidableEq

inductive Fault where
  | image (error : ImageError)
  /-- `checkRegion`'s `RangeError`: the region, and the size that it does not fit. -/
  | region (x y width height : Num) (across down : Nat)
  /-- The `RangeError` of a typed array that is longer than any can be. -/
  | length
  /-- A read or a write out of an array's bounds. -/
  | outside

def refuse (why : String) : Fault :=
  .image ⟨.undecodable, .decode, "the PNG cannot be read: " ++ why⟩

/-- `bytes[from]` to `bytes[to - 1]`. -/
def view (bytes : Bytes) (start stop : Nat) : Except Fault Bytes :=
  if start ≤ stop ∧ stop ≤ bytes.length then .ok ((bytes.drop start).take (stop - start))
  else .error .outside

/-- `DataView.getUint32`, of these four bytes. -/
def uint32 (four : Bytes) : Nat := four.foldl (fun n b => 256 * n + b.toNat) 0

def ascii (s : String) : Bytes := s.toList.map fun c => UInt8.ofNat c.toNat

/-- `PNG_SIGNATURE` -/
def pngSignature : Bytes := [0x89, 0x50, 0x4e, 0x47, 0x0d, 0x0a, 0x1a, 0x0a]

structure Chunk where
  type : Bytes
  data : Bytes
  next : Nat

/-- The chunk at `at_`: its type, its data, and where the next starts. -/
def chunkAt (bytes : Bytes) (at_ : Nat) : Except Fault Chunk :=
  if at_ + 12 > bytes.length then .error (refuse "no IEND chunk")
  else
    (view bytes at_ (at_ + 4)).bind fun four =>
      let length := uint32 four
      if at_ + 12 + length > bytes.length then .error (refuse "a chunk is cut short")
      else
        (view bytes (at_ + 4) (at_ + 8)).bind fun type =>
          (view bytes (at_ + 8) (at_ + 8 + length)).bind fun data =>
            .ok { type, data, next := at_ + 12 + length }

/-- `samples` is the samples of a pixel as stored. -/
structure PngHeader where
  width : Nat
  height : Nat
  samples : Nat
  deriving DecidableEq

/-- `x > limit`, where a limit that is left out is none. -/
def exceeds (limit : Option Num) (x : ℚ) : Bool :=
  match limit with
  | none | some .nan => false
  | some (.infinite negative) => negative
  | some (.finite limit) => limit < x

/-- The samples of a colour type that is read. -/
def samplesOf (colour : UInt8) : Option Nat :=
  if colour = 0 then some 1
  else if colour = 2 then some 3
  else if colour = 4 then some 2
  else if colour = 6 then some 4
  else none

def tooManyPixels (width height : Nat) (maxPixels : Option Num) : Fault :=
  .image ⟨.tooLarge, .pixels, s!"the PNG has {width}x{height} pixels, over the " ++
    (match maxPixels with
    | some (.finite limit) => toString limit
    | some (.infinite true) => "-Infinity"
    | _ => "") ++ " limit"⟩

def readHeader (bytes : Bytes) (maxPixels : Option Num) : Except Fault PngHeader :=
  if bytes.take 8 ≠ pngSignature then .error (refuse "no PNG signature")
  else
    (chunkAt bytes 8).bind fun first =>
      if first.type ≠ ascii "IHDR" ∨ first.data.length ≠ 13 then .error (refuse "no IHDR chunk")
      else
        (view first.data 0 4).bind fun across =>
          (view first.data 4 8).bind fun down =>
            let width := uint32 across
            let height := uint32 down
            if width < 1 ∨ height < 1 ∨ width > 0x7fffffff ∨ height > 0x7fffffff then
              .error (refuse "the size is not valid")
            else if exceeds maxPixels (double ((width : ℚ) * height)) then
              .error (tooManyPixels width height maxPixels)
            else if byte first.data 8 ≠ 8 then .error (refuse "only 8-bit samples are read")
            else if byte first.data 12 ≠ 0 then .error (refuse "an interlaced PNG is not read")
            else
              match samplesOf (byte first.data 9) with
              | none => .error (refuse "this colour type (a palette, for one) is not read")
              | some samples => .ok { width, height, samples }

theorem view_ok {bytes : Bytes} {start stop : Nat} (le : start ≤ stop)
    (fits : stop ≤ bytes.length) :
    view bytes start stop = .ok ((bytes.drop start).take (stop - start)) := if_pos ⟨le, fits⟩

/-- What `chunkAt` finds lies within the bytes, and ends after it began. -/
theorem chunkAt_ok {bytes : Bytes} {at_ : Nat} {c : Chunk} (found : chunkAt bytes at_ = .ok c) :
    at_ + 12 ≤ c.next ∧ c.next ≤ bytes.length ∧
      c.type = (bytes.drop (at_ + 4)).take 4 ∧
      c.data = (bytes.drop (at_ + 8)).take (c.next - (at_ + 12)) := by
  rw [chunkAt] at found
  split at found
  next => cases found
  next room =>
    rw [view_ok (by omega) (by omega), Except.bind] at found
    dsimp only at found
    split at found
    next => cases found
    next fits =>
      rw [view_ok (by omega) (by omega), view_ok (by omega) (by omega)] at found
      cases found
      dsimp only
      refine ⟨by omega, by omega, ?_, ?_⟩ <;> congr 1 <;> omega

/-- A chunk is read without leaving the bytes. -/
theorem chunkAt_inside (bytes : Bytes) (at_ : Nat) : chunkAt bytes at_ ≠ .error .outside := by
  rw [chunkAt]
  split
  next => simp [refuse]
  next room =>
    rw [view_ok (by omega) (by omega), Except.bind]
    dsimp only
    split
    next => simp [refuse]
    next fits =>
      rw [view_ok (by omega) (by omega), view_ok (by omega) (by omega)]
      simp [Except.bind]

/-- The payloads of the IDAT chunks from a place on, and how their stream ends. -/
def idatFrom (bytes : Bytes) (at_ : Nat) (sawData : Bool) : List Bytes × Except Fault Unit :=
  match _found : chunkAt bytes at_ with
  | .error fault => ([], .error fault)
  | .ok c =>
      if c.type = ascii "IDAT" then
        let (payloads, ending) := idatFrom bytes c.next true
        (c.data :: payloads, ending)
      else if c.type = ascii "IEND" then
        ([], if sawData then .ok () else .error (refuse "no IDAT chunk"))
      else idatFrom bytes c.next sawData
termination_by bytes.length - at_
decreasing_by
  all_goals
    have bounds := chunkAt_ok _found
    omega

def idatStream (bytes : Bytes) : List Bytes × Except Fault Unit := idatFrom bytes 8 false

/-- How the inflated stream ends: `failed` is what reading it rejects with. -/
inductive Finish where
  | done
  | failed (error : Fault)
  /-- The stream's own error. -/
  | broken

/-- zlib, and `DecompressionStream('deflate')`: what it gives of a stream's parts, cut in any
way, and how it ends. -/
structure Zlib where
  inflated : Bytes → Option Bytes
  deflate : Bytes → Bytes
  inflated_deflate : ∀ raw, inflated (deflate raw) = some raw
  decompress : List Bytes → Except Fault Unit → List Bytes × Finish
  inverts : ∀ payloads data, inflated payloads.flatten = some data →
    (decompress payloads (.ok ())).1.flatten = data ∧ (decompress payloads (.ok ())).2 = .done

/-- The longest a typed array can be: 4 GiB in Bun, or less. -/
abbrev Limit := { limit : Nat // limit ≤ 2 ^ 32 }

/-- `new Uint8Array(length)` -/
def newArray (limit : Limit) (length : Nat) : Except Fault Bytes :=
  if length ≤ limit then .ok (List.replicate length 0) else .error .length

/-- `array.set(bytes, at_)`, whose `RangeError` is a write out of the array. -/
def setAt (array : Bytes) (at_ : Nat) (bytes : Bytes) : Except Fault Bytes :=
  if at_ + bytes.length ≤ array.length then
    .ok (array.take at_ ++ bytes ++ array.drop (at_ + bytes.length))
  else .error .outside

/-- Decoded pixels, row after row, `channels` bytes each. -/
structure RawImage where
  width : Nat
  height : Nat
  channels : Nat
  pixels : Bytes
  deriving DecidableEq

/-! Writing. -/

/-- `DataView.setUint32`: big-endian, modulo 2^32. -/
def setUint32 (n : Nat) : Bytes :=
  [UInt8.ofNat (n / 256 ^ 3), UInt8.ofNat (n / 256 ^ 2), UInt8.ofNat (n / 256), UInt8.ofNat n]

/-- One PNG chunk: length, type, data and CRC. -/
def chunk (limit : Limit) (crc32 : Bytes → Nat) (type : Bytes) (data : Bytes) :
    Except Fault Bytes :=
  (newArray limit (12 + data.length)).bind fun _ =>
    .ok (setUint32 data.length ++ type ++ data ++ setUint32 (crc32 (type ++ data)))

/-- The rows of `raw` from `y` on, `count` of them, under filter 0. -/
def setRows (stride : Nat) (pixels : Bytes) : Nat → Nat → Bytes → Except Fault Bytes
  | _, 0, raw => .ok raw
  | y, count + 1, raw =>
      (setAt raw (y * (stride + 1) + 1) ((pixels.drop (y * stride)).take stride)).bind
        (setRows stride pixels (y + 1) count)

def headerOf (width height channels : Nat) : Bytes :=
  setUint32 width ++ setUint32 height ++ [8, if channels = 4 then 6 else 2, 0, 0, 0]

/-- A PNG of these pixels: IHDR, one IDAT and IEND. -/
def encodePng (limit : Limit) (zlib : Zlib) (crc32 : Bytes → Nat) (image : RawImage) :
    Except Fault Bytes :=
  let stride := image.width * image.channels
  (newArray limit ((stride + 1) * image.height)).bind fun empty =>
    (setRows stride image.pixels 0 image.height empty).bind fun raw =>
      (chunk limit crc32 (ascii "IHDR")
          (headerOf image.width image.height image.channels)).bind fun ihdr =>
        (chunk limit crc32 (ascii "IDAT") (zlib.deflate raw)).bind fun idat =>
          (chunk limit crc32 (ascii "IEND") []).bind fun iend =>
            let parts := [pngSignature, ihdr, idat, iend]
            (newArray limit parts.flatten.length).bind fun _ => .ok parts.flatten

end NxgtData.Image
