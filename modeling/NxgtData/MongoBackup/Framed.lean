import NxgtData.MongoBackup.BsonStream

/-!
What a reader has read is what it yielded, the part of a document it holds and what
it carried over. At the end of a chunk that is less than a length, or a document
that has begun and is not whole, so the bytes decide what is yielded and where the
reader throws, wherever they were cut. A buffer is yielded when its document is
whole, and the next document has one of its own.
-/
namespace NxgtData.MongoBackup.Format

/-! A document says its own length. -/

theorem getInt32_append {s : Bytes} (long : 4 ≤ s.length) (t : Bytes) :
    getInt32 (s ++ t) = getInt32 s := by
  match s, long with
  | b₀ :: b₁ :: b₂ :: b₃ :: rest, _ => rfl

/-- The length of the document a sequence starts with, when it says one. -/
def documentSize (s : Bytes) : Option Nat :=
  if s.length < 4 ∨ getInt32 s < 5 ∨ (documentMaxBytes : Int) < getInt32 s then none
  else some (getInt32 s).toNat

theorem documentSize_eq_some {s : Bytes} {n : Nat} : documentSize s = some n ↔
    4 ≤ s.length ∧ getInt32 s = n ∧ 5 ≤ n ∧ n ≤ documentMaxBytes := by
  unfold documentSize
  split
  next => refine iff_of_false (by simp) (by omega)
  next =>
    rw [Option.some.injEq]
    omega

/-- A document: its first four bytes, a little-endian signed integer, are its length,
which is 5 to 17 MiB. -/
def bsonFraming : Framing UInt8 where
  size := documentSize
  size_append := by
    intro s n size t
    obtain ⟨long, told, bounds⟩ := documentSize_eq_some.mp size
    refine documentSize_eq_some.mpr ⟨?_, ?_, bounds⟩
    next => exact Nat.le_trans long (by simp)
    next => rw [getInt32_append long, told]
  size_pos := by
    intro s n size
    have := documentSize_eq_some.mp size
    omega

theorem isBlock_iff {b : Bytes} : bsonFraming.IsBlock b ↔
    getInt32 b = b.length ∧ 5 ≤ b.length ∧ b.length ≤ documentMaxBytes := by
  refine documentSize_eq_some.trans ⟨And.right, fun h => ⟨by omega, h⟩⟩

/-! The buffers. -/

/-- Nothing touches a buffer after it is yielded, and it holds what was yielded. The
buffer of the document being read is another one, of the document's length. -/
structure Kept (r : Reader) : Prop where
  quiet : r.log.Pairwise fun e later => e.document ≠ none → later.addr ≠ e.addr
  holds : ∀ a b, .yielded a b ∈ r.log → r.buffers[a]? = some b
  length : ∀ d, r.document = some d → (r.buffer d.addr).length = d.length
  inside : ∀ d, r.document = some d → d.addr < r.buffers.length
  apart : ∀ d, r.document = some d → ∀ e ∈ r.log, e.document ≠ none → e.addr ≠ d.addr

theorem Kept.start : Kept {} where
  quiet := List.Pairwise.nil
  holds _ _ mem := absurd mem List.not_mem_nil
  length _ is := by cases is
  inside _ is := by cases is
  apart _ is := by cases is

theorem Kept.allocate {r : Reader} (h : Kept r) (length : Nat) (room : 0 < length) :
    Kept (r.allocate length room) where
  quiet := h.quiet
  holds a b mem := by
    have old := h.holds a b mem
    exact (List.getElem?_append_left (List.getElem?_eq_some_iff.mp old).1).trans old
  length d is := by
    cases is
    simp [Reader.buffer, Reader.allocate]
  inside d is := by
    cases is
    simp [Reader.allocate]
  apart d is e mem yields := by
    cases is
    cases e with
    | wrote a => exact absurd rfl yields
    | yielded a b => exact Nat.ne_of_lt (List.getElem?_eq_some_iff.mp (h.holds a b mem)).1

section
variable {r : Reader} {d : Filling} {piece : Bytes}

/-- What the buffer of the document holds once a piece is set. -/
theorem buffer_set (inside : d.addr < r.buffers.length) :
    (r.set d piece).buffer d.addr = (r.buffer d.addr).take d.filled ++ piece ++
      (r.buffer d.addr).drop (d.filled + piece.length) := by
  simp [Reader.buffer, Reader.set, inside]

theorem Kept.set (h : Kept r) (is : r.document = some d)
    (fits : d.filled + piece.length ≤ d.length) : Kept (r.set d piece) where
  quiet := by
    refine List.pairwise_append.mpr ⟨h.quiet, List.pairwise_singleton _ _, ?_⟩
    intro e mem later new yields
    cases List.mem_singleton.mp new
    exact (h.apart d is e mem yields).symm
  holds a b mem := by
    rcases List.mem_append.mp mem with old | new
    next =>
      have other := h.apart d is _ old (by simp [Event.document])
      rw [← h.holds a b old]
      exact List.getElem?_modify_ne _ _ other.symm
    next => cases List.mem_singleton.mp new
  length d' is' := by
    cases Option.some.inj (is.symm.trans is')
    rw [buffer_set (h.inside d is)]
    have := h.length d is
    simp
    omega
  inside d' is' := by
    rw [Reader.set, List.length_modify]
    exact h.inside d' is'
  apart d' is' e mem yields := by
    rcases List.mem_append.mp mem with old | new
    next => exact h.apart d' is' e old yields
    next =>
      cases List.mem_singleton.mp new
      exact absurd rfl yields

/-- The buffer of a document that a piece fills, or leaves room in. -/
theorem take_buffer_set (h : Kept r) (is : r.document = some d)
    (fits : d.filled + piece.length ≤ d.length) :
    ((r.set d piece).buffer d.addr).take (d.filled + piece.length) =
      (r.buffer d.addr).take d.filled ++ piece := by
  have long := h.length d is
  have begun : ((r.buffer d.addr).take d.filled).length = d.filled :=
    List.length_take_of_le (by omega)
  rw [buffer_set (h.inside d is), List.take_left' (by rw [List.length_append, begun])]

theorem Kept.fill (h : Kept r) (is : r.document = some d)
    (fits : d.filled + piece.length ≤ d.length) : Kept (r.fill d piece) := by
  have set := h.set is fits
  unfold Reader.fill
  split
  next room =>
    exact ⟨set.quiet, set.holds, fun d' is' => by cases is'; exact set.length d is,
      fun d' is' => by cases is'; exact set.inside d is,
      fun d' is' => by cases is'; exact set.apart d is⟩
  next full =>
    refine ⟨?_, ?_, fun _ is' => ?_, fun _ is' => ?_, fun _ is' => ?_⟩
    rotate_left 2
    next => cases is'
    next => cases is'
    next => cases is'
    next =>
      refine List.pairwise_append.mpr ⟨set.quiet, List.pairwise_singleton _ _, ?_⟩
      intro e mem later new yields
      cases List.mem_singleton.mp new
      exact (set.apart d is e mem yields).symm
    next =>
      intro a b mem
      rcases List.mem_append.mp mem with old | new
      next => exact set.holds a b old
      next =>
        cases List.mem_singleton.mp new
        have inside := set.inside d is
        simp [Reader.buffer, inside]

end

/-! What was read. -/

namespace Reader

/-- The part of a document held. -/
def held (r : Reader) : Bytes :=
  match r.document with
  | some d => (r.buffer d.addr).take d.filled
  | none => []

theorem held_eq {r : Reader} {d : Filling} (is : r.document = some d) :
    r.held = (r.buffer d.addr).take d.filled := by rw [held, is]

theorem held_none {r : Reader} (is : r.document = none) : r.held = [] := by rw [held, is]

end Reader

/-- A reader with `rest` ahead has read the rest of `total`: the documents it yielded,
and the beginning of one that says its length. -/
structure Reads (r : Reader) (rest total : Bytes) : Prop where
  kept : Kept r
  framed : bsonFraming.Framed r.documents
  whole : total = r.documents.flatten ++ (r.held ++ rest)
  header : ∀ d, r.document = some d → documentSize (r.held ++ rest) = some d.length

/-- Between two chunks. -/
structure Settled (r : Reader) (total : Bytes) : Prop where
  reads : Reads r r.carry total
  short : r.carry.length < 4
  alone : ∀ d, r.document = some d → r.carry = []

/-- A reader that threw in a chunk: what comes after its documents has a length that
is none. -/
structure Stopped (r : Reader) (total : Bytes) : Prop where
  kept : Kept r
  framed : bsonFraming.Framed r.documents
  bad : ∃ rest, total = r.documents.flatten ++ rest ∧ 4 ≤ rest.length ∧
    (getInt32 rest < 5 ∨ (documentMaxBytes : Int) < getInt32 rest)

theorem Reads.allocate {r : Reader} {rest total : Bytes} (h : Reads r rest total)
    (none : r.document = none) {n : Nat} (size : documentSize rest = some n) (room : 0 < n) :
    Reads (r.allocate n room) rest total := by
  have empty : (r.allocate n room).held = [] := by simp [Reader.held, Reader.allocate]
  refine ⟨h.kept.allocate n room, h.framed, ?_, ?_⟩
  next => rw [empty, h.whole, Reader.held_none none]; rfl
  next =>
    intro d is
    cases is
    rw [empty]
    exact size

theorem Reads.fill {r : Reader} {d : Filling} {piece rest total : Bytes}
    (h : Reads r (piece ++ rest) total) (is : r.document = some d)
    (fits : d.filled + piece.length ≤ d.length) : Reads (r.fill d piece) rest total := by
  have kept := h.kept.fill is fits
  have begun := take_buffer_set h.kept is fits
  have whole : total = r.documents.flatten ++
      (((r.set d piece).buffer d.addr).take (d.filled + piece.length) ++ rest) := by
    rw [h.whole, Reader.held_eq is, begun, List.append_assoc]
  have size := h.header d is
  rw [Reader.held_eq is, ← List.append_assoc, ← begun] at size
  have same : (r.set d piece).documents = r.documents := by
    simp [Reader.documents, Reader.set, Event.document]
  by_cases room : d.filled + piece.length < d.length
  next =>
    rw [Reader.fill, dif_pos room] at kept ⊢
    refine ⟨kept, ?_, ?_, ?_⟩
    next => exact same ▸ h.framed
    next => exact whole.trans (by rw [← same]; rfl)
    next =>
      intro d' is'
      cases is'
      exact size
  next =>
    have long := (h.kept.set is fits).length d is
    rw [List.take_of_length_le (by omega)] at whole size
    have block : bsonFraming.IsBlock ((r.set d piece).buffer d.addr) := by
      obtain ⟨-, told, least, most⟩ := documentSize_eq_some.mp size
      rw [getInt32_append (by omega)] at told
      exact isBlock_iff.mpr ⟨by omega, by omega, by omega⟩
    have more : (r.fill d piece).documents =
        r.documents ++ [(r.set d piece).buffer d.addr] := by
      rw [← same, Reader.fill, dif_neg room]
      simp [Reader.documents, Event.document]
    have none : (r.fill d piece).document = none := by rw [Reader.fill, dif_neg room]
    refine ⟨kept, ?_, ?_, ?_⟩
    next => exact more ▸ h.framed.concat block
    next => rw [more, Reader.held_none none, whole]; simp
    next =>
      intro d' is'
      rw [none] at is'
      cases is'

/-- What is carried over is no part of what `Reads` is about. -/
theorem Reads.carrying {r : Reader} {rest total : Bytes} (h : Reads r rest total)
    (carry : Bytes) : Reads { r with carry } rest total where
  kept := ⟨h.kept.quiet, h.kept.holds, h.kept.length, h.kept.inside, h.kept.apart⟩
  framed := h.framed
  whole := h.whole
  header := h.header

/-- A chunk is read to its end, or up to a length that is none. -/
theorem scan_reads {total : Bytes} (data : Bytes) (offset : Nat) (r : Reader)
    (h : Reads r (data.drop offset) total) (empty : r.carry = []) :
    ((scan data offset r).2 = false ∧ Settled (scan data offset r).1 total) ∨
      ((scan data offset r).2 = true ∧ Stopped (scan data offset r).1 total) := by
  fun_induction scan data offset r with
  | case1 offset r more d filling n ih =>
      have cut : data.drop offset = (data.drop offset).take n ++ data.drop (offset + n) := by
        rw [← List.drop_drop, List.take_append_drop]
      have fits : d.filled + ((data.drop offset).take n).length ≤ d.length := by
        have := d.room
        simp only [List.length_take, List.length_drop]
        omega
      rw [cut] at h
      refine ih (h.fill filling fits) ?_
      unfold Reader.fill
      split <;> exact empty
  | case2 offset r more filling few =>
      refine Or.inl ⟨rfl, h.carrying _, ?_, fun d is => ?_⟩
      next => exact List.length_drop ▸ few
      next => exact absurd (filling.symm.trans is) (by simp)
  | case3 offset r more filling enough length bad =>
      refine Or.inr ⟨rfl, h.kept, h.framed, data.drop offset, ?_, ?_, bad⟩
      next => rw [h.whole, Reader.held_none filling]; rfl
      next => simpa using enough
  | case4 offset r more filling enough length good ih =>
      have long : 4 ≤ (data.drop offset).length := by simpa using enough
      have size : documentSize (data.drop offset) = some length.toNat :=
        documentSize_eq_some.mpr ⟨long, by omega, by omega, by omega⟩
      exact ih (h.allocate filling size (by omega)) empty
  | case5 offset r done =>
      have past : data.drop offset = [] := List.drop_eq_nil_of_le (by omega)
      rw [past] at h
      refine Or.inl ⟨rfl, ?_, by simp [empty], fun _ _ => empty⟩
      rwa [empty]

theorem readChunk_reads {r : Reader} {total : Bytes} (h : Settled r total) (chunk : Bytes) :
    ((readChunk r chunk).2 = false ∧ Settled (readChunk r chunk).1 (total ++ chunk)) ∨
      ((readChunk r chunk).2 = true ∧ Stopped (readChunk r chunk).1 (total ++ chunk)) := by
  have data : (if r.carry.length = 0 then chunk else concat r.carry chunk) =
      r.carry ++ chunk := by
    split
    next none => rw [List.length_eq_zero_iff.mp none, List.nil_append]
    next => rfl
  refine scan_reads _ 0 _ ?_ rfl
  rw [data, List.drop_zero]
  refine (Reads.carrying ⟨h.reads.kept, h.reads.framed, ?_, ?_⟩ [])
  next => rw [h.reads.whole]; simp only [List.append_assoc]
  next =>
    intro d is
    rw [← List.append_assoc]
    exact bsonFraming.size_append (h.reads.header d is) chunk

/-! The whole stream. -/

/-- A run over the bytes: what it yielded, and how it ended. -/
structure Exact (place : String) (run : Run) (bytes : Bytes) : Prop where
  kept : Kept run.reader
  longest : bsonFraming.Longest bytes run.reader.documents
  ended : run.reader.documents.flatten = bytes → run.outcome = .ok ()
  threw : run.reader.documents.flatten ≠ bytes → run.outcome = .error (malformed place)

/-- Where the rest starts with no document a reader throws, and where there is none it
ends. -/
theorem exact_of_ends {place : String} {run : Run} {bytes rest : Bytes}
    (kept : Kept run.reader) (framed : bsonFraming.Framed run.reader.documents)
    (whole : bytes = run.reader.documents.flatten ++ rest) (ends : bsonFraming.Ends rest)
    (ended : rest = [] → run.outcome = .ok ())
    (threw : rest ≠ [] → run.outcome = .error (malformed place)) : Exact place run bytes where
  kept := kept
  longest := whole ▸ Framing.longest_of_ends framed ends
  ended all := ended (by simpa using all.trans whole)
  threw not := threw fun none => not (by rw [whole, none, List.append_nil])

theorem Stopped.exact {r : Reader} {total more : Bytes} (h : Stopped r total) (place : String) :
    Exact place ⟨r, .error (malformed place)⟩ (total ++ more) := by
  obtain ⟨rest, whole, long, bad⟩ := h.bad
  have none : documentSize (rest ++ more) = none := by
    refine if_pos (Or.inr ?_)
    rwa [getInt32_append long]
  have after : total ++ more = r.documents.flatten ++ (rest ++ more) := by
    rw [whole, List.append_assoc]
  refine exact_of_ends h.kept h.framed after (Framing.ends_of_size none) (fun empty => ?_)
    fun _ => rfl
  rw [(List.append_eq_nil_iff.mp empty).1] at long
  exact absurd long (by decide)

theorem Settled.ends {r : Reader} {total : Bytes} (h : Settled r total) :
    bsonFraming.Ends (r.held ++ r.carry) := by
  cases filling : r.document with
  | none =>
      rw [Reader.held_none filling]
      exact Framing.ends_of_size (if_pos (Or.inl h.short))
  | some d =>
      have size := h.reads.header d filling
      refine Framing.ends_of_short size ?_
      rw [h.alone d filling, Reader.held_eq filling]
      have := d.room
      simp
      omega

/-- A reader holds nothing exactly when there is nothing more of a document. -/
theorem Settled.holds_iff {r : Reader} {total : Bytes} (h : Settled r total) :
    r.document.isSome ∨ 0 < r.carry.length ↔ r.held ++ r.carry ≠ [] := by
  cases filling : r.document with
  | none =>
      rw [Reader.held_none filling, List.nil_append, List.length_pos_iff]
      simp
  | some d =>
      have long := (documentSize_eq_some.mp (h.reads.header d filling)).1
      refine iff_of_true (Or.inl rfl) fun empty => ?_
      rw [empty] at long
      exact absurd long (by decide)

theorem Settled.exact {r : Reader} {total : Bytes} (h : Settled r total) (place : String) :
    Exact place (readChunks place [] r) total := by
  have whole := h.reads.whole
  have holds := h.holds_iff
  rw [readChunks]
  split
  next some =>
    exact exact_of_ends h.reads.kept h.reads.framed whole h.ends
      (fun empty => absurd empty (holds.mp some)) fun _ => rfl
  next none =>
    exact exact_of_ends h.reads.kept h.reads.framed whole h.ends (fun _ => rfl)
      fun some => absurd (holds.mpr some) none

theorem readChunks_exact {place : String} (chunks : List Bytes) {r : Reader} {total : Bytes}
    (h : Settled r total) : Exact place (readChunks place chunks r) (total ++ chunks.flatten) := by
  induction chunks generalizing r total with
  | nil =>
      rw [List.flatten_nil, List.append_nil]
      exact h.exact place
  | cons chunk rest ih =>
      have read := readChunk_reads h chunk
      rw [readChunks, List.flatten_cons, ← List.append_assoc]
      revert read
      cases readChunk r chunk with
      | mk after threw =>
          rintro (⟨goes, settled⟩ | ⟨throws, stopped⟩)
          next =>
            cases goes
            exact ih settled
          next =>
            cases throws
            exact stopped.exact place

theorem Settled.start : Settled {} [] where
  reads := ⟨Kept.start, fun _ mem => absurd mem List.not_mem_nil, rfl, fun _ is => by cases is⟩
  short := by decide
  alone _ is := by cases is

theorem bsonDocuments_run (chunks : List Bytes) (place : String) :
    Exact place (bsonDocuments chunks place) chunks.flatten :=
  readChunks_exact chunks Settled.start

/-- A stream of documents, however it is cut, is yielded document by document and
ends; of any other the most documents it starts with are, and then the reader throws.
A buffer that was yielded is not touched again, and the bytes alone decide what is
yielded. -/
theorem bsonDocuments_exact (chunks : List Bytes) (place : String) :
    let run := bsonDocuments chunks place
    (∀ blocks, bsonFraming.Framed blocks → chunks.flatten = blocks.flatten →
      run.reader.documents = blocks ∧ run.outcome = .ok ()) ∧
    ((¬ ∃ blocks, bsonFraming.Framed blocks ∧ chunks.flatten = blocks.flatten) →
      bsonFraming.Longest chunks.flatten run.reader.documents ∧
        run.outcome = .error (malformed place)) ∧
    (run.reader.log.Pairwise fun e later => e.document ≠ none → later.addr ≠ e.addr) ∧
    (∀ a b, .yielded a b ∈ run.reader.log → run.reader.buffers[a]? = some b) ∧
    ∀ chunks', chunks'.flatten = chunks.flatten →
      (bsonDocuments chunks' place).reader.documents = run.reader.documents ∧
        (bsonDocuments chunks' place).outcome = run.outcome := by
  have exactly := bsonDocuments_run chunks place
  refine ⟨?_, ?_, exactly.kept.quiet, exactly.kept.holds, ?_⟩
  next =>
    intro blocks framed whole
    have same := exactly.longest.unique (whole ▸ Framing.longest_of_framed framed)
    exact ⟨same, exactly.ended (same ▸ whole.symm)⟩
  next =>
    intro other
    exact ⟨exactly.longest, exactly.threw fun whole =>
      other ⟨_, exactly.longest.framed, whole.symm⟩⟩
  next =>
    intro chunks' bytes
    have exactly' := bsonDocuments_run chunks' place
    rw [bytes] at exactly'
    have same := exactly'.longest.unique exactly.longest
    refine ⟨same, ?_⟩
    by_cases whole : (bsonDocuments chunks place).reader.documents.flatten = chunks.flatten
    next => rw [exactly.ended whole, exactly'.ended (same ▸ whole)]
    next => rw [exactly.threw whole, exactly'.threw (same ▸ whole)]

end NxgtData.MongoBackup.Format
