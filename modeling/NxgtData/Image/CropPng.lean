import NxgtData.Image.Rows

/-!
`cropPng`: a region of a PNG's pixels, read row by row as the PNG inflates. The region's rows
are written one after another, each once, and grey is widened on the way.
-/
namespace NxgtData.Image

structure Region where
  x : Num
  y : Num
  width : Num
  height : Num

/-- A region that fits: its corner and its size in pixels. -/
structure Rect where
  x : Nat
  y : Nat
  width : Nat
  height : Nat
  deriving DecidableEq

/-- The sums are those of integers: one that a double cannot hold is too large either way. -/
def checkRegion (region : Region) (header : PngHeader) : Except Fault Rect :=
  let refused := Except.error
    (.region region.x region.y region.width region.height header.width header.height)
  match region.x.integer, region.y.integer, region.width.integer, region.height.integer with
  | some x, some y, some width, some height =>
      if x < 0 ∨ y < 0 ∨ width < 1 ∨ height < 1 ∨ x + width > header.width ∨
          y + height > header.height then
        refused
      else .ok ⟨x.toNat, y.toNat, width.toNat, height.toNat⟩
  | _, _, _, _ => refused

/-- `array[at_] = value` -/
def write (array : Bytes) (at_ : Nat) (value : UInt8) : Except Fault Bytes :=
  if at_ < array.length then .ok (array.set at_ value) else .error .outside

/-- The columns of a grey row from `i` on, `count` of them. -/
def widen (row : Bytes) (start samples channels outRow : Nat) :
    Nat → Nat → Bytes → Except Fault Bytes
  | _, 0, out => .ok out
  | i, count + 1, out =>
      let grey := byte row (start + i * samples)
      let at_ := outRow + i * channels
      (write out at_ grey).bind fun out =>
        (write out (at_ + 1) grey).bind fun out =>
          (write out (at_ + 2) grey).bind fun out =>
            if channels = 4 then
              (write out (at_ + 3) (byte row (start + i * samples + 1))).bind
                (widen row start samples channels outRow (i + 1) count)
            else widen row start samples channels outRow (i + 1) count out

/-- Copies columns of an unfiltered row into the output, widening grey. -/
def copyColumns (row : Bytes) (region : Rect) (samples : Nat) (out : Bytes) (outRow : Nat) :
    Except Fault Bytes :=
  let start := 1 + region.x * samples
  if samples ≥ 3 then setAt out outRow ((row.drop start).take (region.width * samples))
  else widen row start samples (if samples = 1 then 3 else 4) outRow 0 region.width out

/-- What `reader.read()` rejects with, as `cropPng` passes it on. -/
def unreadable : Fault → Fault
  | .image error => .image error
  | _ => refuse "the pixel data is not valid zlib"

/-- The parts read one after another: what `onRow` made of its variables in the end. -/
def readRows {σ : Type} {stride : Nat} (height bpp : Nat)
    (onRow : Bytes → Nat → σ → Except Fault (σ × Bool)) (finish : Finish) :
    List Bytes → Rows stride → σ → Except Fault σ
  | [], rows, s =>
      match finish with
      | .done =>
          if rows.y < height then .error (refuse "the pixel data is shorter than the header says")
          else .ok s
      | .failed fault => .error (unreadable fault)
      | .broken => .error (refuse "the pixel data is not valid zlib")
  | part :: parts, rows, s =>
      (rows.feed height bpp onRow s part).bind fun ((rows, s), more) =>
        if more then readRows height bpp onRow finish parts rows s else .ok s

/-- The channels of the pixels that come out. -/
def channelsOf (samples : Nat) : Nat := if samples = 1 ∨ samples = 3 then 3 else 4

/-- `onRow`: the region's columns of a row, and whether there is more to read. -/
def cropRow (header : PngHeader) (wanted : Rect) (row : Bytes) (y : Nat) (out : Bytes) :
    Except Fault (Bytes × Bool) :=
  let lastRow := wanted.y + wanted.height - 1
  let more := decide (y < lastRow) || decide (lastRow = header.height - 1)
  if y ≥ wanted.y then
    (copyColumns row wanted header.samples out
        ((y - wanted.y) * wanted.width * channelsOf header.samples)).bind fun out => .ok (out, more)
  else .ok (out, more)

def cropPng (limit : Limit) (zlib : Zlib) (bytes : Bytes) (region : Nat → Nat → Region)
    (maxPixels : Option Num) : Except Fault RawImage :=
  (readHeader bytes maxPixels).bind fun header =>
    (checkRegion (region header.width header.height) header).bind fun wanted =>
      let stride := header.width * header.samples
      let channels := channelsOf header.samples
      (newArray limit (wanted.width * wanted.height * channels)).bind fun out =>
        (newArray limit (stride + 1)).bind fun _ =>
          let (payloads, ending) := idatStream bytes
          let (parts, finish) := zlib.decompress payloads ending
          (readRows header.height header.samples (cropRow header wanted) finish parts
              (Rows.start stride) out).bind fun pixels =>
            .ok { width := wanted.width, height := wanted.height, channels, pixels }

/-! The image. -/

/-- The pixel `x` of a row as it comes out: grey is three equal samples, alpha is kept. -/
def pixelAt (samples : Nat) (row : Bytes) (x : Nat) : Bytes :=
  if samples = 1 then [byte row x, byte row x, byte row x]
  else if samples = 2 then
    [byte row (2 * x), byte row (2 * x), byte row (2 * x), byte row (2 * x + 1)]
  else (row.drop (x * samples)).take samples

def regionRow (samples : Nat) (row : Bytes) (region : Rect) : Bytes :=
  (List.range region.width).flatMap fun i => pixelAt samples row (region.x + i)

/-- The first `count` rows of a region's pixels. -/
def regionRows (samples : Nat) (row : Nat → Bytes) (region : Rect) (count : Nat) : Bytes :=
  (List.range count).flatMap fun k => regionRow samples (row (region.y + k)) region

/-- A region's pixels. -/
def regionPixels (samples : Nat) (row : Nat → Bytes) (region : Rect) : Bytes :=
  regionRows samples row region region.height

end NxgtData.Image
