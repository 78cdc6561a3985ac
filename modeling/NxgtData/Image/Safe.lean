import NxgtData.Image.Reading

/-!
`cropPng` on any bytes: what it reads and writes lies within its arrays, what it refuses with,
and what the inflated data is like where it answers.
-/
namespace NxgtData.Image

theorem newArray_ok {limit : Limit} {length : Nat} (room : length ≤ limit) :
    newArray limit length = .ok (List.replicate length 0) := if_pos room

/-- A chunk is refused with an `ImageError`. -/
theorem chunkAt_error {bytes : Bytes} {at_ : Nat} {fault : Fault}
    (refused : chunkAt bytes at_ = .error fault) : ∃ error, fault = .image error := by
  rw [chunkAt] at refused
  split at refused
  next =>
    cases refused
    exact ⟨_, rfl⟩
  next room =>
    rw [view_ok (by omega) (by omega), Except.bind] at refused
    dsimp only at refused
    split at refused
    next =>
      cases refused
      exact ⟨_, rfl⟩
    next fits =>
      rw [view_ok (by omega) (by omega), view_ok (by omega) (by omega)] at refused
      cases refused

theorem samplesOf_stored {colour : UInt8} {samples : Nat} (is : samplesOf colour = some samples) :
    Stored samples := by
  rw [samplesOf] at is
  rw [Stored]
  split at is
  next => cases is; decide
  next =>
  split at is
  next => cases is; decide
  next =>
  split at is
  next => cases is; decide
  next =>
  split at is
  next => cases is; decide
  next => cases is

/-- What `readHeader` lets through. -/
structure PngHeader.Sound (header : PngHeader) : Prop where
  wide : 1 ≤ header.width
  tall : 1 ≤ header.height
  width : header.width ≤ 0x7fffffff
  height : header.height ≤ 0x7fffffff
  stored : Stored header.samples

theorem readHeader_spec (bytes : Bytes) (maxPixels : Option Num) :
    (∃ header, readHeader bytes maxPixels = .ok header ∧ header.Sound) ∨
      ∃ error, readHeader bytes maxPixels = .error (.image error) := by
  rw [readHeader]
  split
  next => exact .inr ⟨_, rfl⟩
  next =>
  cases found : chunkAt bytes 8 with
  | error fault =>
      obtain ⟨error, rfl⟩ := chunkAt_error found
      exact .inr ⟨error, rfl⟩
  | ok first =>
  rw [Except.bind]
  dsimp only
  split
  next => exact .inr ⟨_, rfl⟩
  next ihdr =>
  push Not at ihdr
  rw [view_ok (by omega) (by omega), Except.bind]
  rw [view_ok (by omega) (by omega), Except.bind]
  split
  next => exact .inr ⟨_, rfl⟩
  next size =>
  split
  next => exact .inr ⟨_, rfl⟩
  next =>
  split
  next => exact .inr ⟨_, rfl⟩
  next =>
  split
  next => exact .inr ⟨_, rfl⟩
  next =>
  cases stored : samplesOf (byte first.data 9) with
  | none => exact .inr ⟨_, rfl⟩
  | some samples =>
      refine .inl ⟨_, rfl, ?_⟩
      constructor <;> dsimp only <;> first | omega | exact samplesOf_stored stored

/-- Every payload costs at least the twelve bytes around it. -/
theorem idatFrom_length (bytes : Bytes) (at_ : Nat) (sawData : Bool) :
    12 * (idatFrom bytes at_ sawData).1.length ≤ bytes.length - at_ := by
  induction left : bytes.length - at_ using Nat.strong_induction_on generalizing at_ sawData with
  | _ n ih =>
  subst left
  rw [idatFrom]
  split
  next => simp
  next c found =>
    have bounds := chunkAt_ok found
    split
    next =>
      have rest := ih _ (by omega) c.next true rfl
      simp only [List.length_cons]
      omega
    next =>
      split
      next => simp
      next =>
        have rest := ih _ (by omega) c.next sawData rfl
        omega

/-- The inflated data, and how it ends. -/
def inflatedOf (zlib : Zlib) (bytes : Bytes) : Bytes × Finish :=
  let (payloads, ending) := idatStream bytes
  let (parts, finish) := zlib.decompress payloads ending
  (parts.flatten, finish)

theorem kept_start {samples : Nat} {images : Nat → Bytes} {wanted : Rect} {out : Bytes}
    (length : out.length = wanted.width * wanted.height * channelsOf samples) :
    Kept samples images wanted 0 out := by
  refine ⟨out, ?_, ?_, ?_⟩
  · simp [regionRows]
  · simp [regionRows]
  · rw [length, Nat.zero_sub, Nat.sub_zero, Nat.mul_comm wanted.width, Nat.mul_assoc]

/-- After the region's last row there is nothing but its pixels. -/
theorem kept_all {samples : Nat} {images : Nat → Bytes} {wanted : Rect} {out : Bytes}
    (kept : Kept samples images wanted (wanted.y + wanted.height) out) :
    out = regionPixels samples images wanted := by
  obtain ⟨rest, rfl, -, room⟩ := kept
  rw [Nat.add_sub_cancel_left] at room ⊢
  rw [Nat.sub_self, Nat.zero_mul] at room
  rw [List.eq_nil_of_length_eq_zero room, List.append_nil, regionPixels]

/-- The loop of `cropPng`, where its arrays could be made. -/
theorem readRows_crop {zlib : Zlib} {header : PngHeader} (sound : header.Sound) {wanted : Rect}
    (fits : Fits wanted header.width header.height) (bytes : Bytes) {out : Bytes}
    (length : out.length = wanted.width * wanted.height * channelsOf header.samples) :
    let (parts, _) := zlib.decompress (idatStream bytes).1 (idatStream bytes).2
    let stride := header.width * header.samples
    ReadTo stride header.height (inflatedOf zlib bytes).1 (inflatedOf zlib bytes).2
      (Kept header.samples (imageRow stride header.samples (inflatedOf zlib bytes).1) wanted)
      (readsOn header wanted)
      (readRows header.height header.samples (cropRow header wanted) (inflatedOf zlib bytes).2 parts
        (Rows.start stride) out) := by
  have pos : 0 < header.samples := by
    obtain is | is | is | is := sound.stored <;> omega
  exact readRows_spec pos (Nat.le_mul_of_pos_left _ sound.wide)
    (fun row y s lt given length is kept going =>
      cropRow_spec sound.stored fits lt length is kept going) _ _
    (reads_start _) (kept_start length) (fun k lt => absurd lt (Nat.not_lt_zero k))
    (Nat.zero_le _) rfl

/-- What `cropPng` ends in, on any bytes. -/
inductive Cropping (limit : Limit) (zlib : Zlib) (bytes : Bytes) (region : Nat → Nat → Region)
    (maxPixels : Option Num) : Except Fault RawImage → Prop where
  | image (error : ImageError) : Cropping limit zlib bytes region maxPixels (.error (.image error))
  | region {header : PngHeader} (read : readHeader bytes maxPixels = .ok header) {given : Region}
      (is : given = region header.width header.height)
      (no : ∀ wanted, given.Is wanted → ¬ Fits wanted header.width header.height) :
      Cropping limit zlib bytes region maxPixels
        (.error (.region given.x given.y given.width given.height header.width header.height))
  | length {header : PngHeader} (read : readHeader bytes maxPixels = .ok header) {wanted : Rect}
      (is : (region header.width header.height).Is wanted)
      (fits : Fits wanted header.width header.height)
      (long : limit < wanted.width * wanted.height * channelsOf header.samples ∨
        limit < header.width * header.samples + 1) :
      Cropping limit zlib bytes region maxPixels (.error .length)
  | read {header : PngHeader} (read : readHeader bytes maxPixels = .ok header) {wanted : Rect}
      (sound : header.Sound) (is : (region header.width header.height).Is wanted)
      (fits : Fits wanted header.width header.height)
      (room : wanted.width * wanted.height * channelsOf header.samples ≤ limit)
      (room' : header.width * header.samples + 1 ≤ limit) {result : Except Fault Bytes}
      (to_ : ReadTo (header.width * header.samples) header.height (inflatedOf zlib bytes).1
        (inflatedOf zlib bytes).2
        (Kept header.samples (imageRow (header.width * header.samples) header.samples
          (inflatedOf zlib bytes).1) wanted) (readsOn header wanted) result) :
      Cropping limit zlib bytes region maxPixels (result.bind fun pixels =>
        .ok ⟨wanted.width, wanted.height, channelsOf header.samples, pixels⟩)

theorem cropPng_cropping (limit : Limit) (zlib : Zlib) (bytes : Bytes)
    (region : Nat → Nat → Region) (maxPixels : Option Num) :
    Cropping limit zlib bytes region maxPixels (cropPng limit zlib bytes region maxPixels) := by
  rw [cropPng]
  obtain ⟨header, read, sound⟩ | ⟨error, read⟩ := readHeader_spec bytes maxPixels
  swap
  · rw [read]
    exact .image error
  rw [read, Except.bind]
  dsimp only
  obtain ⟨wanted, checked, is, fits⟩ | ⟨checked, no⟩ :=
    checkRegion_spec (region header.width header.height) header
  swap
  · rw [checked]
    exact .region read rfl no
  rw [checked, Except.bind]
  by_cases room : wanted.width * wanted.height * channelsOf header.samples ≤ limit
  swap
  · rw [newArray, if_neg room]
    exact .length read is fits (.inl (Nat.lt_of_not_le room))
  by_cases room' : header.width * header.samples + 1 ≤ limit
  swap
  · rw [newArray_ok room, newArray, if_neg room']
    exact .length read is fits (.inr (Nat.lt_of_not_le room'))
  rw [newArray_ok room, newArray_ok room', Except.bind, Except.bind]
  exact .read read sound is fits room room'
    (@readRows_crop zlib _ sound _ fits bytes _ List.length_replicate)

theorem unreadable_image (fault : Fault) : ∃ error, unreadable fault = .image error := by
  cases fault with
  | image error => exact ⟨error, rfl⟩
  | region | length | outside => exact ⟨_, rfl⟩

/-- The inflated bytes are the image's rows, under filters that are known: all of them, and no
byte more, where the region reaches the last row, and else those up to its last row. -/
def Backed (inflated : Bytes × Finish) (header : PngHeader) (wanted : Rect) : Prop :=
  let stride := header.width * header.samples
  let rows := wanted.y + wanted.height
  (if rows = header.height then
      inflated.2 = .done ∧ inflated.1.length = rows * (stride + 1)
    else rows * (stride + 1) ≤ inflated.1.length) ∧
  ∀ k < rows, filterOf stride inflated.1 k ≤ 4

/-- The loop's two ways to end well. -/
theorem ReadTo.backed {data : Bytes} {finish : Finish} {header : PngHeader} {wanted : Rect}
    (fits : Fits wanted header.width header.height) {out : Bytes} {images : Nat → Bytes}
    (to_ : ReadTo (header.width * header.samples) header.height data finish
      (Kept header.samples images wanted) (readsOn header wanted) (.ok out)) :
    Backed (data, finish) header wanted ∧ out = regionPixels header.samples images wanted := by
  have tall := fits.tall
  have down := fits.down
  cases to_ with
  | whole done length filters kept going =>
      have last : wanted.y + wanted.height = header.height := by
        have before := going (wanted.y + wanted.height - 1) (by omega)
        simp only [readsOn, Bool.or_eq_true, decide_eq_true_eq] at before
        omega
      rw [← last] at kept length filters
      refine ⟨⟨?_, filters⟩, kept_all kept⟩
      rw [if_pos last]
      exact ⟨done, length⟩
  | @stopped _ k lt given filters kept last going =>
      have here : wanted.y + wanted.height ≠ header.height ∧ k + 1 = wanted.y + wanted.height := by
        simp only [readsOn, Bool.or_eq_false_iff, decide_eq_false_iff_not] at last
        refine ⟨by omega, ?_⟩
        by_contra other
        have before := going (k - 1) (by omega)
        simp only [readsOn, Bool.or_eq_true, decide_eq_true_eq] at before
        omega
      rw [here.2] at kept given filters
      refine ⟨⟨?_, filters⟩, kept_all kept⟩
      rw [if_neg here.1]
      exact given

/-- On any bytes: the chunks are walked within them and to an end, nothing is read or written
outside of an array, and what is refused is an `ImageError`, a region that does not fit, or an
array that would be longer than any can be. -/
theorem cropPng_safe (limit : Limit) (zlib : Zlib) (bytes : Bytes) (region : Nat → Nat → Region)
    (maxPixels : Option Num) :
    (∀ at_, chunkAt bytes at_ ≠ .error .outside) ∧
    (∀ at_ found, chunkAt bytes at_ = .ok found →
      at_ + 12 ≤ found.next ∧ found.next ≤ bytes.length) ∧
    12 * (idatStream bytes).1.length ≤ bytes.length ∧
    match cropPng limit zlib bytes region maxPixels with
    | .ok image => ∃ header wanted, readHeader bytes maxPixels = .ok header ∧
        (region header.width header.height).Is wanted ∧
        Fits wanted header.width header.height ∧ Backed (inflatedOf zlib bytes) header wanted ∧
        image.width = wanted.width ∧ image.height = wanted.height
    | .error (.image _) => True
    | .error (.region ..) => ∃ header, readHeader bytes maxPixels = .ok header ∧
        ∀ wanted, (region header.width header.height).Is wanted →
          ¬ Fits wanted header.width header.height
    | .error .length => ∃ header wanted, readHeader bytes maxPixels = .ok header ∧
        (region header.width header.height).Is wanted ∧
        Fits wanted header.width header.height ∧
        (limit < wanted.width * wanted.height * channelsOf header.samples ∨
          limit < header.width * header.samples + 1)
    | .error .outside => False := by
  refine ⟨chunkAt_inside bytes,
    fun at_ found ok => ⟨(chunkAt_ok ok).1, (chunkAt_ok ok).2.1⟩, ?_, ?_⟩
  · have walked := idatFrom_length bytes 8 false
    rw [idatStream]
    omega
  have ends := cropPng_cropping limit zlib bytes region maxPixels
  generalize cropPng limit zlib bytes region maxPixels = result at ends
  cases ends with
  | image error => trivial
  | region read is no =>
      subst is
      exact ⟨_, read, no⟩
  | length read is fits long => exact ⟨_, _, read, is, fits, long⟩
  | @read header read wanted sound is fits room room' result to_ =>
      cases result with
      | ok out =>
          exact ⟨_, _, read, is, fits, (to_.backed fits).1, rfl, rfl⟩
      | error fault =>
          cases to_ with
          | shorter | longer | unknown | broken => trivial
          | failed is =>
              obtain ⟨error, image⟩ := unreadable_image _
              rw [image]
              trivial

/-- The whole image. -/
def Region.whole (width height : Nat) : Region := ⟨.ofNat 0, .ofNat 0, .ofNat width, .ofNat height⟩

/-- A zlib whose streams are their own data. -/
def Zlib.plain : Zlib where
  inflated := some
  deflate raw := raw
  inflated_deflate _ := rfl
  decompress payloads ending :=
    (payloads, match ending with
      | .ok _ => .done
      | .error fault => .failed fault)
  inverts _ _ is := ⟨Option.some.inj is, rfl⟩

/-- The start of an RGB image with as many pixels as a header can say. -/
def largest : Bytes :=
  pngSignature ++ setUint32 13 ++ ascii "IHDR" ++ headerOf 0x7fffffff 0x7fffffff 3 ++ setUint32 0

/-- A region that fits, and a `RangeError`. -/
theorem cropPng_largest :
    readHeader largest none = .ok ⟨0x7fffffff, 0x7fffffff, 3⟩ ∧
      (Region.whole 0x7fffffff 0x7fffffff).Is ⟨0, 0, 0x7fffffff, 0x7fffffff⟩ ∧
      Fits ⟨0, 0, 0x7fffffff, 0x7fffffff⟩ 0x7fffffff 0x7fffffff ∧
      cropPng ⟨2 ^ 32, le_rfl⟩ Zlib.plain largest Region.whole none = .error .length := by
  have read : readHeader largest none = .ok ⟨0x7fffffff, 0x7fffffff, 3⟩ := rfl
  have is : (Region.whole 0x7fffffff 0x7fffffff).Is ⟨0, 0, 0x7fffffff, 0x7fffffff⟩ :=
    ⟨rfl, rfl, rfl, rfl⟩
  have fits : Fits ⟨0, 0, 0x7fffffff, 0x7fffffff⟩ 0x7fffffff 0x7fffffff := by
    constructor <;> decide
  refine ⟨read, is, fits, ?_⟩
  rw [cropPng, read, Except.bind]
  dsimp only
  rw [checkRegion_ok is fits, Except.bind, newArray, if_neg (by decide)]
  rfl

end NxgtData.Image
