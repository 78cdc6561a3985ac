import NxgtData.Image.File
import NxgtData.Refusal

/-!
`cropPng` of a PNG is the region of the image that the PNG stands for, and of a PNG that
`encodePng` wrote the image that it was given.
-/
namespace NxgtData.Image

/-- The image's rows by the PNG specification: each is what its filtered row stands for, below
the one before it. -/
def Decodes (stride bpp : Nat) (data : Bytes) (height : Nat) (images : Nat → Bytes) : Prop :=
  ∀ k < height, Recon (filterOf stride data k) bpp ((line stride data k).drop 1)
    (if k = 0 then List.replicate stride 0 else images (k - 1)) (images k)

theorem decodes_imageRow {stride bpp : Nat} (pos : 0 < bpp) (data : Bytes) (height : Nat) :
    Decodes stride bpp data height (imageRow stride bpp data) := by
  intro k _
  have above_ : (if k = 0 then List.replicate stride 0 else imageRow stride bpp data (k - 1)) =
      above stride bpp data k := by
    cases k with
    | zero => rfl
    | succ k => rfl
  rw [above_]
  exact recon_spec _ _ _ pos

/-- The specification leaves no choice. -/
theorem decodes_unique {stride bpp height : Nat} {data : Bytes} {images : Nat → Bytes}
    (pos : 0 < bpp) (decodes : Decodes stride bpp data height images) {k : Nat} (lt : k < height) :
    imageRow stride bpp data k = images k := by
  induction k with
  | zero => exact recon_unique pos (decodes_imageRow pos data height 0 lt) (decodes 0 lt)
  | succ k ih =>
      have here := (decodes_imageRow pos data height : Decodes stride _ _ _ _) (k + 1) lt
      have there := decodes (k + 1) lt
      rw [if_neg (Nat.succ_ne_zero k), Nat.add_sub_cancel] at here there
      rw [ih (by omega)] at here
      exact recon_unique pos here there

theorem flatMap_congr_range {α : Type} {f g : Nat → List α} {n : Nat}
    (same : ∀ i < n, f i = g i) : (List.range n).flatMap f = (List.range n).flatMap g := by
  induction n with
  | zero => rfl
  | succ n ih =>
      rw [range_flatMap_succ, range_flatMap_succ, ih fun i lt => same i (by omega),
        same n (by omega)]

theorem inflatedOf_bytes {zlib : Zlib} {file : PngFile} {data : Bytes}
    (inflated : zlib.inflated file.idat.flatten = some data) :
    inflatedOf zlib file.bytes = (data, .done) := by
  obtain ⟨whole, done⟩ := zlib.inverts _ _ inflated
  rw [inflatedOf, idatStream_bytes]
  exact Prod.ext whole done

/-- Any file's region, whatever its filters, its chunks and the parts that it inflates to. -/
theorem cropPng_bytes (limit : Limit) (zlib : Zlib) (file : PngFile) {data : Bytes}
    (inflated : zlib.inflated file.idat.flatten = some data)
    (length : data.length = file.header.height * (file.header.width * file.header.samples + 1))
    (filters : ∀ k < file.header.height,
      filterOf (file.header.width * file.header.samples) data k ≤ 4)
    {images : Nat → Bytes} (decodes : Decodes (file.header.width * file.header.samples)
      file.header.samples data file.header.height images)
    {maxPixels : Option Num}
    (within : exceeds maxPixels (double ((file.header.width : ℚ) * file.header.height)) = false)
    {region : Nat → Nat → Region} {wanted : Rect}
    (is : (region file.header.width file.header.height).Is wanted)
    (fits : Fits wanted file.header.width file.header.height)
    (room : wanted.width * wanted.height * channelsOf file.header.samples ≤ limit)
    (room' : file.header.width * file.header.samples + 1 ≤ limit) :
    cropPng limit zlib file.bytes region maxPixels =
      .ok ⟨wanted.width, wanted.height, channelsOf file.header.samples,
        regionPixels file.header.samples images wanted⟩ := by
  have pos : 0 < file.header.samples := by
    obtain is | is | is | is := file.sound.stored <;> omega
  have same : regionPixels file.header.samples images wanted = regionPixels file.header.samples
      (imageRow (file.header.width * file.header.samples) file.header.samples data) wanted := by
    rw [regionPixels, regionPixels, regionRows, regionRows]
    refine flatMap_congr_range fun k lt => ?_
    have down := fits.down
    rw [decodes_unique pos decodes (by omega)]
  rw [cropPng, readHeader_bytes file within, Except.bind]
  dsimp only
  rw [checkRegion_ok is fits, Except.bind, newArray_ok room, newArray_ok room', Except.bind,
    Except.bind]
  have to_ := @readRows_crop zlib _ file.sound _ fits file.bytes _
    (List.length_replicate (n := wanted.width * wanted.height * channelsOf file.header.samples)
      (a := (0 : UInt8)))
  have finish : (zlib.decompress file.idat (.ok ())).2 = .done := (zlib.inverts _ _ inflated).2
  rw [inflatedOf_bytes inflated, idatStream_bytes] at to_
  rw [idatStream_bytes]
  dsimp only at to_ ⊢
  rw [finish]
  generalize readRows _ _ _ _ _ _ _ = result at to_
  cases result with
  | ok out =>
      rw [(to_.backed fits).2, same]
      rfl
  | error fault =>
      cases to_ with
      | shorter done short => omega
      | longer long => omega
      | unknown lt given filter => exact absurd (filters _ lt) (by omega)
      | failed is => cases is
      | broken is => cases is

/-- A row that is filtered is unfiltered again. -/
theorem unfilterRow_filterRow {type bpp : Nat} (pos : 0 < bpp) (known : type ≤ 4) {up row : Bytes}
    (fits : bpp ≤ row.length) (first first' : UInt8) :
    ∃ r, unfilterRow type (first :: filterRow type bpp up row) (first' :: up) 1 row.length bpp =
        some r ∧ r.drop 1 = row := by
  have length : (first :: filterRow type bpp up row).length = 1 + row.length := by
    simp [filterRow, Nat.add_comm]
  obtain ⟨r, unfiltered, -, -, is⟩ :=
    @unfilterRow_spec _ _ _ _ (first' :: up) pos fits length known
  exact ⟨r, unfiltered, is.trans (recon_filterRow type up row pos)⟩

/-! What `encodePng` writes. -/

theorem flatMap_slice {α : Type} {f : Nat → List α} {n m k : Nat}
    (each : ∀ i < n, (f i).length = m) (lt : k < n) :
    (((List.range n).flatMap f).drop (k * m)).take m = f k := by
  induction n with
  | zero => cases lt
  | succ n ih =>
      have before : ((List.range n).flatMap f).length = n * m :=
        flatMap_length fun i lt => each i (by omega)
      rw [range_flatMap_succ]
      obtain lt | rfl := Nat.lt_succ_iff_lt_or_eq.mp lt
      · have inside : k * m + m ≤ n * m := by
          rw [← Nat.succ_mul]
          exact Nat.mul_le_mul_right m lt
        rw [List.drop_append_of_le_length (by omega), List.take_append_of_le_length
          (by rw [List.length_drop]; omega)]
        exact ih (fun i lt => each i (by omega)) lt
      · rw [← before, List.drop_left, List.take_of_length_le (each k (by omega)).le]

/-- The row `k` of pixels. -/
def pixelRow (stride : Nat) (pixels : Bytes) (k : Nat) : Bytes :=
  (pixels.drop (k * stride)).take stride

theorem pixelRow_length {stride height k : Nat} {pixels : Bytes}
    (length : pixels.length = height * stride) (lt : k < height) :
    (pixelRow stride pixels k).length = stride := by
  have inside : (k + 1) * stride ≤ height * stride := Nat.mul_le_mul_right _ lt
  rw [Nat.succ_mul] at inside
  rw [pixelRow, List.length_take, List.length_drop]
  omega

/-- Each row is written behind a filter byte that is zero. -/
theorem setRows_spec {stride height : Nat} {pixels : Bytes}
    (length : pixels.length = height * stride) (count y : Nat) (done : Bytes)
    (place : done.length = y * (stride + 1)) (all : y + count = height) :
    setRows stride pixels y count (done ++ List.replicate (count * (stride + 1)) 0) =
      .ok (done ++ (List.range count).flatMap fun k => 0 :: pixelRow stride pixels (y + k)) := by
  induction count generalizing y done with
  | zero => simp [setRows]
  | succ count ih =>
      have long := pixelRow_length length (k := y) (by omega)
      have zeros : done ++ List.replicate ((count + 1) * (stride + 1)) (0 : UInt8) =
          done ++ [0] ++ List.replicate stride 0 ++ List.replicate (count * (stride + 1)) 0 := by
        rw [List.append_assoc, List.append_assoc, List.replicate_append_replicate,
          ← List.replicate_one, List.replicate_append_replicate, Nat.succ_mul]
        congr 2
        omega
      have here : (done ++ [(0 : UInt8)]).length = y * (stride + 1) + 1 := by simp [place]
      have past : (done ++ [(0 : UInt8)] ++ List.replicate stride 0).length =
          y * (stride + 1) + 1 + stride := by
        rw [List.length_append, here, List.length_replicate]
      rw [setRows, ← pixelRow, zeros,
        setAt_ok (by rw [long, List.length_append, past]; omega), long, Except.bind,
        List.append_assoc (done ++ [0]), List.take_left' here, ← List.append_assoc,
        List.drop_left' past, ih (y + 1) _ (by simp [place, long, Nat.succ_mul]) (by omega),
        range_succ_flatMap]
      simp [Nat.add_assoc, Nat.add_comm 1]

/-- Pixels that there is a PNG for. -/
structure RawImage.Valid (image : RawImage) : Prop where
  channels : image.channels = 3 ∨ image.channels = 4
  wide : 1 ≤ image.width
  tall : 1 ≤ image.height
  length : image.pixels.length = image.height * (image.width * image.channels)

/-- The rows that `encodePng` deflates. -/
def RawImage.raw (image : RawImage) : Bytes :=
  (List.range image.height).flatMap fun k =>
    0 :: pixelRow (image.width * image.channels) image.pixels k

theorem newArray_room {limit : Limit} {length : Nat} {array : Bytes}
    (made : newArray limit length = .ok array) :
    length ≤ limit ∧ array = List.replicate length 0 := by
  rw [newArray] at made
  split at made
  next room =>
    cases made
    exact ⟨room, rfl⟩
  next => cases made

/-- A chunk that could be written is one of a file. -/
theorem chunk_ok {limit : Limit} {crc32 : Bytes → Nat} {type data bytes : Bytes}
    (typed : type.length = 4) (written : chunk limit crc32 type data = .ok bytes) :
    ∃ c : FileChunk, c.type = type ∧ c.data = data ∧ c.bytes = bytes := by
  obtain ⟨_, made, is⟩ := bind_eq_ok_iff.mp written
  cases is
  have room := (newArray_room made).1
  have most := limit.2
  exact ⟨⟨type, data, setUint32 (crc32 (type ++ data)), typed, rfl, by omega⟩, rfl, rfl, rfl⟩

theorem encodePng_ok {limit : Limit} {zlib : Zlib} {crc32 : Bytes → Nat} {image : RawImage}
    {bytes : Bytes} (valid : image.Valid) (encoded : encodePng limit zlib crc32 image = .ok bytes) :
    (image.width * image.channels + 1) * image.height ≤ limit ∧
      ∃ file : PngFile, file.bytes = bytes ∧
        file.header = ⟨image.width, image.height, image.channels⟩ ∧
        file.idat = [zlib.deflate image.raw] := by
  obtain ⟨empty, made, encoded⟩ := bind_eq_ok_iff.mp encoded
  obtain ⟨room, rfl⟩ := newArray_room made
  obtain ⟨raw, rows, encoded⟩ := bind_eq_ok_iff.mp encoded
  obtain ⟨ihdr, first, encoded⟩ := bind_eq_ok_iff.mp encoded
  obtain ⟨idat, second, encoded⟩ := bind_eq_ok_iff.mp encoded
  obtain ⟨iend, third, encoded⟩ := bind_eq_ok_iff.mp encoded
  obtain ⟨_, -, is⟩ := bind_eq_ok_iff.mp encoded
  cases is
  refine ⟨room, ?_⟩
  have written := setRows_spec valid.length image.height 0 [] (by simp) (Nat.zero_add _)
  rw [List.nil_append, List.nil_append, Nat.mul_comm image.height, rows] at written
  simp only [Nat.zero_add] at written
  cases written
  obtain ⟨ihdr, ihdrType, ihdrData, rfl⟩ := chunk_ok rfl first
  obtain ⟨idat, idatType, idatData, rfl⟩ := chunk_ok rfl second
  obtain ⟨iend, iendType, -, rfl⟩ := chunk_ok rfl third
  have most := limit.2
  have tall := valid.tall
  have wide := valid.wide
  have stored : Stored image.channels := by
    obtain is | is := valid.channels
    · exact .inr (.inr (.inl is))
    · exact .inr (.inr (.inr is))
  have narrow : image.width * 3 ≤ image.width * image.channels := by
    obtain is | is := valid.channels
    · rw [is]
    · rw [is]
      omega
  have across : image.width * image.channels + 1 ≤
      (image.width * image.channels + 1) * image.height := Nat.le_mul_of_pos_right _ tall
  have down : 4 * image.height ≤ (image.width * image.channels + 1) * image.height :=
    Nat.mul_le_mul_right _ (by omega)
  have colour : colourOf image.channels = if image.channels = 4 then 6 else 2 := by
    obtain is | is := valid.channels <;> rw [is] <;> rfl
  refine ⟨{
    header := ⟨image.width, image.height, image.channels⟩
    sound := ⟨wide, tall, by dsimp only; omega, by dsimp only; omega, stored⟩
    ihdr, isHeader := ⟨ihdrType, by rw [ihdrData, headerOf, colour]⟩
    chunks := [idat]
    inner := fun c mem => by
      rw [List.mem_singleton.mp mem, idatType]
      decide
    someData := ⟨idat, List.mem_singleton_self _, idatType⟩
    iend, isEnd := iendType }, ?_, rfl, ?_⟩
  · simp [PngFile.bytes]
  · simp [PngFile.idat, idatType, idatData, RawImage.raw]

/-- What is cropped of the whole of a PNG that was encoded is the image. -/
theorem cropPng_encodePng {limit : Limit} {zlib : Zlib} {crc32 : Bytes → Nat} {image : RawImage}
    {bytes : Bytes} (valid : image.Valid) (encoded : encodePng limit zlib crc32 image = .ok bytes) :
    cropPng limit zlib bytes Region.whole none = .ok image := by
  obtain ⟨room, file, rfl, header, idat⟩ := encodePng_ok valid encoded
  set stride := image.width * image.channels with stride_eq
  have tall := valid.tall
  have wide := valid.wide
  have rowLength (k : Nat) (lt : k < image.height) :
      (0 :: pixelRow stride image.pixels k).length = stride + 1 := by
    rw [List.length_cons, pixelRow_length valid.length lt]
  have line_ (k : Nat) (lt : k < image.height) :
      line stride image.raw k = 0 :: pixelRow stride image.pixels k := flatMap_slice rowLength lt
  have filter (k : Nat) (lt : k < image.height) : filterOf stride image.raw k = 0 := by
    rw [filterOf, line_ k lt]
    rfl
  have inflated : zlib.inflated file.idat.flatten = some image.raw := by
    rw [idat, List.flatten_singleton, zlib.inflated_deflate]
  have samples : channelsOf image.channels = image.channels := by
    obtain is | is := valid.channels <;> rw [is] <;> rfl
  have three : 3 ≤ image.channels := by
    obtain is | is := valid.channels <;> omega
  have across : stride + 1 ≤ (stride + 1) * image.height := Nat.le_mul_of_pos_right _ tall
  have pixels : image.width * image.height * channelsOf image.channels ≤
      (stride + 1) * image.height := by
    rw [samples, Nat.mul_right_comm]
    exact Nat.mul_le_mul_right _ (Nat.le_succ _)
  have length : image.raw.length =
      file.header.height * (file.header.width * file.header.samples + 1) := by
    rw [header]
    exact flatMap_length rowLength
  have filters : ∀ k < file.header.height,
      filterOf (file.header.width * file.header.samples) image.raw k ≤ 4 := by
    rw [header]
    exact fun k lt => (filter k lt).le.trans (Nat.zero_le _)
  have decodes : Decodes (file.header.width * file.header.samples) file.header.samples image.raw
      file.header.height (pixelRow stride image.pixels) := by
    rw [header]
    intro k lt
    dsimp only at lt ⊢
    rw [filter k lt, line_ k lt]
    exact ⟨rfl, fun i _ => (UInt8.add_zero _).symm⟩
  have is : (Region.whole file.header.width file.header.height).Is
      ⟨0, 0, image.width, image.height⟩ := by
    rw [header]
    exact ⟨rfl, rfl, rfl, rfl⟩
  have fits : Fits ⟨0, 0, image.width, image.height⟩ file.header.width file.header.height := by
    rw [header]
    exact ⟨wide, tall, (Nat.zero_add _).le, (Nat.zero_add _).le⟩
  have plain (row : Bytes) (x : Nat) :
      pixelAt image.channels row x = (row.drop (x * image.channels)).take image.channels := by
    rw [pixelAt, if_neg (by omega), if_neg (by omega)]
  have whole : regionPixels image.channels (pixelRow stride image.pixels)
      ⟨0, 0, image.width, image.height⟩ = image.pixels := by
    have rows (k : Nat) (lt : k < image.height) :
        regionRow image.channels (pixelRow stride image.pixels (0 + k))
            ⟨0, 0, image.width, image.height⟩ =
          (image.pixels.drop ((0 + k) * stride)).take stride := by
      rw [regionRow]
      simp only [plain]
      rw [slices_flatMap, Nat.zero_mul, List.drop_zero, Nat.zero_add]
      exact List.take_of_length_le (pixelRow_length valid.length lt).le
    rw [regionPixels, regionRows, flatMap_congr_range rows, slices_flatMap, Nat.zero_mul,
      List.drop_zero, List.take_of_length_le valid.length.le]
  rw [cropPng_bytes limit zlib file inflated length filters decodes rfl is fits
    (by rw [header]; exact pixels.trans room) (by rw [header]; exact across.trans room), header]
  dsimp only
  rw [whole, samples]

/-- A PNG's region is cropped of the image that the PNG stands for, wherever its pixels and a
row of the image are no longer than an array can be; the filters are undone; and what is cropped
of an encoded image is the image. -/
theorem cropPng_exact (limit : Limit) (zlib : Zlib) :
    (∀ (file : PngFile) (data : Bytes), zlib.inflated file.idat.flatten = some data →
      data.length = file.header.height * (file.header.width * file.header.samples + 1) →
      (∀ k < file.header.height,
        filterOf (file.header.width * file.header.samples) data k ≤ 4) →
      ∃ images, Decodes (file.header.width * file.header.samples) file.header.samples data
          file.header.height images ∧
        ∀ maxPixels, exceeds maxPixels
            (double ((file.header.width : ℚ) * file.header.height)) = false →
        ∀ (region : Nat → Nat → Region) (wanted : Rect),
          (region file.header.width file.header.height).Is wanted →
          Fits wanted file.header.width file.header.height →
          wanted.width * wanted.height * channelsOf file.header.samples ≤ limit →
          file.header.width * file.header.samples + 1 ≤ limit →
            cropPng limit zlib file.bytes region maxPixels =
              .ok ⟨wanted.width, wanted.height, channelsOf file.header.samples,
                regionPixels file.header.samples images wanted⟩) ∧
    (∀ type ≤ 4, ∀ bpp > 0, ∀ (up row : Bytes) (first first' : UInt8), bpp ≤ row.length →
      ∃ r, unfilterRow type (first :: filterRow type bpp up row) (first' :: up) 1 row.length bpp =
        some r ∧ r.drop 1 = row) ∧
    ∀ (crc32 : Bytes → Nat) (image : RawImage) (bytes : Bytes), image.Valid →
      encodePng limit zlib crc32 image = .ok bytes →
        cropPng limit zlib bytes Region.whole none = .ok image := by
  refine ⟨fun file data inflated length filters => ?_,
    fun type known bpp pos up row first first' fits =>
      unfilterRow_filterRow pos known fits first first',
    fun crc32 image bytes valid encoded => cropPng_encodePng valid encoded⟩
  have pos : 0 < file.header.samples := by
    obtain is | is | is | is := file.sound.stored <;> omega
  refine ⟨_, decodes_imageRow pos data file.header.height, ?_⟩
  intro maxPixels within region wanted is fits room room'
  exact cropPng_bytes limit zlib file inflated length filters
    (decodes_imageRow pos data file.header.height) within is fits room room'

/-! A small image. -/

/-- A zlib that has this stream for these bytes; no zlib stream begins with a zero. -/
def Zlib.knowing (raw stream : Bytes) (leads : stream.head? = some 0x78) : Zlib :=
  let inflated (z : Bytes) : Option Bytes :=
    if z = stream then some raw else if z.head? = some 0 then some z.tail else none
  { inflated
    deflate := fun data => if data = raw then stream else 0 :: data
    inflated_deflate := fun data => by
      dsimp only [inflated]
      by_cases known : data = raw
      · rw [if_pos known, if_pos rfl, known]
      · rw [if_neg known, if_neg]
        · rfl
        · intro is
          rw [← is] at leads
          exact absurd leads (by simp)
    decompress := fun payloads ending =>
      match inflated payloads.flatten, ending with
      | some data, .ok _ => (data.map fun b => [b], .done)
      | _, .error fault => ([], .failed fault)
      | none, .ok _ => ([], .broken)
    inverts := fun payloads data is => by
      rw [is]
      refine ⟨?_, rfl⟩
      show (data.map fun b => [b]).flatten = data
      rw [← List.flatMap_def, List.flatMap_singleton'] }

/-- Two rows of two grey pixels, under the filters 1 and 2. -/
def smallData : Bytes := [1, 10, 5, 2, 1, 1]

def smallStream : Bytes := [120, 1, 1, 6, 0, 249, 255, 1, 10, 5, 2, 1, 1, 0, 91, 0, 21]

/-- A chunk of text stands between the two halves of the stream. -/
def small : PngFile where
  header := ⟨2, 2, 1⟩
  sound := ⟨by simp, by simp, by simp, by simp, .inl rfl⟩
  ihdr :=
    { type := ascii "IHDR", data := setUint32 2 ++ setUint32 2 ++ [8, 0, 0, 0, 0]
      crc := [87, 221, 82, 248], typed := rfl, checked := rfl, short := by simp [setUint32] }
  isHeader := ⟨rfl, rfl⟩
  chunks :=
    [{ type := ascii "IDAT", data := smallStream.take 8
       crc := [45, 160, 127, 168], typed := rfl, checked := rfl, short := by decide },
     { type := ascii "tEXt", data := [97, 0, 98]
       crc := [220, 73, 162, 59], typed := rfl, checked := rfl, short := by decide },
     { type := ascii "IDAT", data := smallStream.drop 8
       crc := [16, 105, 251, 47], typed := rfl, checked := rfl, short := by decide }]
  inner c mem := by
    simp only [List.mem_cons, List.not_mem_nil, or_false] at mem
    obtain rfl | rfl | rfl := mem <;> dsimp only <;> decide
  someData := ⟨_, List.mem_cons_self, rfl⟩
  iend :=
    { type := ascii "IEND", data := [], crc := [174, 66, 96, 130], typed := rfl, checked := rfl
      short := by decide }
  isEnd := rfl

/-- The right column of a small image. -/
theorem cropPng_exact_small :
    cropPng ⟨2 ^ 32, le_rfl⟩ (Zlib.knowing smallData smallStream rfl) small.bytes
        (fun _ _ => ⟨.ofNat 1, .ofNat 0, .ofNat 1, .ofNat 2⟩) (some (.ofNat 4)) =
      .ok ⟨1, 2, 3, [15, 15, 15, 16, 16, 16]⟩ := by
  obtain ⟨images, decodes, cropped⟩ :=
    (cropPng_exact ⟨2 ^ 32, le_rfl⟩ (Zlib.knowing smallData smallStream rfl)).1 small smallData
      (by decide) (by decide) (by decide)
  rw [cropped _ (by decide +kernel) _ ⟨1, 0, 1, 2⟩ ⟨rfl, rfl, rfl, rfl⟩
    ⟨by decide, by decide, by decide, by decide⟩ (by decide) (by decide)]
  have first : imageRow 2 1 smallData 0 = images 0 := decodes_unique (by decide) decodes (by decide)
  have second : imageRow 2 1 smallData 1 = images 1 :=
    decodes_unique (by decide) decodes (by decide)
  have pixels : regionPixels 1 images ⟨1, 0, 1, 2⟩ = [15, 15, 15, 16, 16, 16] := by
    show pixelAt 1 (images 0) 1 ++ [] ++ (pixelAt 1 (images 1) 1 ++ [] ++ []) = _
    rw [← first, ← second]
    decide +kernel
  show Except.ok (RawImage.mk 1 2 3 (regionPixels 1 images ⟨1, 0, 1, 2⟩)) = _
  rw [pixels]

/-! An image that is too wide. -/

/-- A chunk of one byte. -/
def single (b : UInt8) : FileChunk where
  type := ascii "IDAT"
  data := [b]
  crc := setUint32 0
  typed := rfl
  checked := rfl
  short := by simp

/-- A zlib that has one byte for this many zeros. -/
def Zlib.zeros (n : Nat) : Zlib :=
  let inflated : Bytes → Option Bytes
    | 0 :: data => some data
    | [1] => some (List.replicate n 0)
    | _ => none
  { inflated
    deflate := fun raw => 0 :: raw
    inflated_deflate := fun _ => rfl
    decompress := fun payloads ending =>
      match inflated payloads.flatten, ending with
      | some data, .ok _ => ([data], .done)
      | some data, .error fault => ([data], .failed fault)
      | none, _ => ([], .broken)
    inverts := fun payloads data is => by
      rw [is]
      exact ⟨List.append_nil data, rfl⟩ }

/-- A grey image of one black row, in one chunk of one byte. -/
def greyRow (width : Nat) (wide : 1 ≤ width) (narrow : width ≤ 0x7fffffff) : PngFile where
  header := ⟨width, 1, 1⟩
  sound := ⟨wide, le_rfl, narrow, by simp, .inl rfl⟩
  ihdr :=
    { type := ascii "IHDR", data := setUint32 width ++ setUint32 1 ++ [8, 0, 0, 0, 0]
      crc := setUint32 0, typed := rfl, checked := rfl, short := by simp [setUint32] }
  isHeader := ⟨rfl, rfl⟩
  chunks := [single 1]
  inner c mem := by
    rw [List.mem_singleton.mp mem]
    show ascii "IDAT" ≠ ascii "IEND"
    decide
  someData := ⟨single 1, List.mem_singleton_self _, rfl⟩
  iend :=
    { type := ascii "IEND", data := [], crc := setUint32 0, typed := rfl, checked := rfl
      short := by decide }
  isEnd := rfl

/-- A grey row whose pixels are longer than an array can be is a PNG as any other. -/
theorem greyRow_refused {limit : Limit} {width : Nat} (wide : 1 ≤ width)
    (narrow : width ≤ 0x7fffffff) (long : limit < width * 1 * channelsOf 1) {file : PngFile}
    (is : file = greyRow width wide narrow) {data : Bytes}
    (zeros : data = List.replicate (width + 1) 0) :
    (Zlib.zeros (width + 1)).inflated file.idat.flatten = some data ∧
      data.length = file.header.height * (file.header.width * file.header.samples + 1) ∧
      (∀ k < file.header.height,
        filterOf (file.header.width * file.header.samples) data k ≤ 4) ∧
      (Region.whole file.header.width file.header.height).Is
        ⟨0, 0, file.header.width, file.header.height⟩ ∧
      Fits ⟨0, 0, file.header.width, file.header.height⟩ file.header.width file.header.height ∧
      cropPng limit (Zlib.zeros (width + 1)) file.bytes Region.whole none = .error .length := by
  have header : file.header = ⟨width, 1, 1⟩ := by rw [is, greyRow]
  have whole : (Region.whole width 1).Is ⟨0, 0, width, 1⟩ := ⟨rfl, rfl, rfl, rfl⟩
  have fits : Fits ⟨0, 0, width, 1⟩ width 1 := ⟨wide, le_rfl, by simp, by simp⟩
  have inflated : (Zlib.zeros (width + 1)).inflated file.idat.flatten = some data := by
    rw [is, zeros]
    rfl
  have refused : cropPng limit (Zlib.zeros (width + 1)) file.bytes Region.whole none =
      .error .length := by
    rw [cropPng, readHeader_bytes file rfl, header, Except.bind]
    dsimp only
    rw [checkRegion_ok whole fits, Except.bind]
    dsimp only
    rw [newArray, if_neg (Nat.not_le_of_lt long)]
    rfl
  rw [header]
  refine ⟨inflated, ?_, fun k lt => ?_, whole, fits, refused⟩
  · rw [zeros, List.length_replicate, Nat.one_mul, Nat.mul_one]
  · obtain rfl : k = 0 := Nat.lt_one_iff.mp lt
    rw [zeros, filterOf, line, Nat.zero_mul, List.drop_zero, List.take_replicate, byte,
      List.getD_replicate _ (by omega)]
    decide

/-- The widest grey row, in a file of some seventy bytes. -/
theorem cropPng_widest : ∃ (file : PngFile) (data : Bytes),
    (Zlib.zeros (0x7fffffff + 1)).inflated file.idat.flatten = some data ∧
      data.length = file.header.height * (file.header.width * file.header.samples + 1) ∧
      (∀ k < file.header.height,
        filterOf (file.header.width * file.header.samples) data k ≤ 4) ∧
      (Region.whole file.header.width file.header.height).Is
        ⟨0, 0, file.header.width, file.header.height⟩ ∧
      Fits ⟨0, 0, file.header.width, file.header.height⟩ file.header.width file.header.height ∧
      cropPng ⟨2 ^ 32, le_rfl⟩ (Zlib.zeros (0x7fffffff + 1)) file.bytes Region.whole none =
        .error .length := by
  have wide : 1 ≤ 0x7fffffff := by decide
  have narrow : 0x7fffffff ≤ 0x7fffffff := le_rfl
  exact ⟨_, _, greyRow_refused wide narrow (by decide) rfl rfl⟩

end NxgtData.Image
