import NxgtData.GridFs.Ranges

/-!
Chunks that were written and are read again: whole, or after some of them were removed or cut
short. A read then gives the bytes of its range or fails, and it comes to an end just where no
chunk that it gets to holds nothing for it.
-/
namespace NxgtData.GridFs.Stored

open PullStream

variable {β : Type}

/-- The bytes before an end of a range, and those after one. -/
def Position.before (bytes : List β) : Position → List β
  | .at_ n => bytes.take n.toNat
  | .infinite negative => if negative then [] else bytes

def Position.after (bytes : List β) : Position → List β
  | .at_ n => bytes.drop n.toNat
  | .infinite negative => if negative then bytes else []

/-- The bytes that a range is of. -/
def ByteRange.of (range : ByteRange) (bytes : List β) : List β :=
  let before := range.stop.elim bytes (Position.before bytes)
  range.start.elim before (Position.after before)

theorem Position.within_le (length : Nat) (p : Position) : p.within length ≤ length := by
  cases p with
  | at_ n =>
      rw [Position.within]
      omega
  | infinite negative =>
      rw [Position.within]
      split <;> omega

theorem endOf_le {length other : Nat} (le : other ≤ length) (p : Option Position) :
    endOf length other p ≤ length := by
  cases p with
  | none => exact le
  | some p => exact p.within_le length

theorem spanOf_spec (length : Nat) (range : ByteRange) :
    (spanOf length range).start ≤ (spanOf length range).stop ∧
      (spanOf length range).stop ≤ length :=
  ⟨Nat.le_max_left _ _, Nat.max_le.mpr ⟨endOf_le (Nat.zero_le _) _, endOf_le (Nat.le_refl _) _⟩⟩

theorem take_within (bytes : List β) (p : Position) :
    bytes.take (p.within bytes.length) = p.before bytes := by
  cases p with
  | at_ n =>
      rw [Position.within, Position.before]
      by_cases beyond : (bytes.length : Int) ≤ n
      · rw [List.take_of_length_le (by omega), List.take_of_length_le (by omega)]
      · congr 1
        omega
  | infinite negative =>
      cases negative with
      | true => rfl
      | false => exact List.take_length

theorem drop_within {length : Nat} {bytes : List β} (short : bytes.length ≤ length)
    (p : Position) : bytes.drop (p.within length) = p.after bytes := by
  cases p with
  | at_ n =>
      rw [Position.within, Position.after]
      by_cases beyond : (length : Int) ≤ n
      · rw [List.drop_of_length_le (by omega), List.drop_of_length_le (by omega)]
      · congr 1
        omega
  | infinite negative =>
      cases negative with
      | true => exact List.drop_zero
      | false => exact List.drop_of_length_le short

/-- A span is what its range says of the bytes. -/
theorem spanOf_bytes (bytes : List β) (range : ByteRange) :
    (bytes.drop (spanOf bytes.length range).start).take
        ((spanOf bytes.length range).stop - (spanOf bytes.length range).start) =
      range.of bytes := by
  have from_ (stop start : Nat) : (bytes.drop start).take (max start stop - start) =
      (bytes.take stop).drop start := by
    rw [List.drop_take]
    congr 1
    omega
  have before : bytes.take (endOf bytes.length bytes.length range.stop) =
      range.stop.elim bytes (Position.before bytes) := by
    cases range.stop with
    | none => exact List.take_length
    | some p => exact take_within bytes p
  have short : (range.stop.elim bytes (Position.before bytes)).length ≤ bytes.length := by
    rw [← before, List.length_take]
    exact Nat.min_le_right _ _
  rw [spanOf, from_, before, ByteRange.of]
  cases range.start with
  | none => exact List.drop_zero
  | some p => exact drop_within short p

/-! What a query finds. -/

/-- What becomes of a chunk: it is removed, or cut to so many bytes at most. -/
def harmed (damage : Nat → Option Nat) (d : Doc β) : Option (Doc β) :=
  (damage d.n).map fun length => { d with data := d.data.take length }

/-- The chunks of a file of these bytes, after some damage, among those of other files. -/
def Damaged (ctx : FileContext) (bytes : List β) (damage : Nat → Option Nat)
    (chunks : List (Doc β)) : Prop :=
  (chunks.filter fun d => d.filesId = ctx.filesId).Perm
    (((List.range (chunkCount ctx.size bytes.length)).map
      (chunkOf ctx.size ctx.filesId bytes)).filterMap (harmed damage))

/-- A chunk that is cut to its size or more stays what it is. -/
theorem harmed_whole {size : ChunkSize} {filesId : String} {bytes : List β}
    {damage : Nat → Option Nat} {n length : Nat} (is : damage n = some length)
    (long : (size : Nat) ≤ length) :
    harmed damage (chunkOf size filesId bytes n) = some (chunkOf size filesId bytes n) := by
  have all : (sliceOf size bytes n).take length = sliceOf size bytes n := by
    rw [sliceOf, List.take_take, Nat.min_eq_right long]
  simp only [harmed, chunkOf, is, Option.map_some, all]

section Found

variable {ctx : FileContext} {span : Span} {bytes : List β} {damage : Nat → Option Nat}
  {chunks : List (Doc β)}

theorem mem_find {d : Doc β} : d ∈ find ctx span chunks ↔ d ∈ chunks ∧ d.filesId = ctx.filesId ∧
    firstChunk ctx.size span ≤ d.n ∧ d.n ≤ lastChunk ctx.size span := by
  rw [find, List.mem_mergeSort, List.mem_filter, decide_eq_true_iff]

theorem Damaged.prefix_ (damaged : Damaged ctx bytes damage chunks) {d : Doc β} (mem : d ∈ chunks)
    (own : d.filesId = ctx.filesId) : d.data <+: sliceOf ctx.size bytes d.n := by
  have there := damaged.mem_iff.mp (List.mem_filter.mpr ⟨mem, by simp [own]⟩)
  obtain ⟨e, mem', is⟩ := List.mem_filterMap.mp there
  obtain ⟨n, -, rfl⟩ := List.mem_map.mp mem'
  obtain ⟨length, -, rfl⟩ := Option.map_eq_some_iff.mp is
  exact List.take_prefix _ _

/-- No two chunks of a file have one number. -/
theorem Damaged.distinct (damaged : Damaged ctx bytes damage chunks) :
    (chunks.filter fun d => d.filesId = ctx.filesId).Pairwise fun a b => a.n ≠ b.n := by
  refine (damaged.pairwise_iff fun ne => Ne.symm ne).mpr ?_
  have stored : ((List.range (chunkCount ctx.size bytes.length)).map
      (chunkOf ctx.size ctx.filesId bytes)).Pairwise fun a b => a.n ≠ b.n :=
    List.Pairwise.map _ (fun _ _ ne => ne) List.nodup_range
  refine List.Pairwise.filterMap _ (fun a b ne a' isA b' isB => ?_) stored
  obtain ⟨_, -, rfl⟩ := Option.map_eq_some_iff.mp isA
  obtain ⟨_, -, rfl⟩ := Option.map_eq_some_iff.mp isB
  exact ne

theorem Damaged.rising (damaged : Damaged ctx bytes damage chunks) :
    (find ctx span chunks).Pairwise fun a b => a.n < b.n := by
  have sorted := @List.pairwise_mergeSort _ (fun a b : Doc β => decide (a.n ≤ b.n))
    (fun a b c => by simpa using Nat.le_trans) (fun a b => by simpa using Nat.le_total _ _)
    (chunks.filter fun d => d.filesId = ctx.filesId ∧ firstChunk ctx.size span ≤ d.n ∧
      d.n ≤ lastChunk ctx.size span)
  have distinct : (find ctx span chunks).Pairwise fun a b => a.n ≠ b.n := by
    rw [find, (List.mergeSort_perm _ _).pairwise_iff fun ne => Ne.symm ne]
    refine damaged.distinct.sublist ?_
    have narrower : (chunks.filter fun d => d.filesId = ctx.filesId ∧
        firstChunk ctx.size span ≤ d.n ∧ d.n ≤ lastChunk ctx.size span) =
        (chunks.filter fun d => d.filesId = ctx.filesId).filter fun d =>
          firstChunk ctx.size span ≤ d.n ∧ d.n ≤ lastChunk ctx.size span := by
      rw [List.filter_filter]
      congr 1
      funext d
      rw [Bool.decide_and, Bool.and_comm]
    rw [narrower]
    exact List.filter_sublist
  refine (sorted.and distinct).imp ?_
  rintro a b ⟨le, ne⟩
  exact Nat.lt_of_le_of_ne (by simpa using le) ne

/-- What is found of chunks that are all whole. -/
theorem find_whole (some_ : span.start < span.stop) (within : span.stop ≤ bytes.length)
    (damaged : Damaged ctx bytes damage chunks)
    (whole : ∀ n, ∃ length, damage n = some length ∧ (ctx.size : Nat) ≤ length) :
    find ctx span chunks = (List.range' (firstChunk ctx.size span)
        (lastChunk ctx.size span + 1 - firstChunk ctx.size span)).map
      (chunkOf ctx.size ctx.filesId bytes) := by
  have rising : (find ctx span chunks).Pairwise fun a b => a.n < b.n := damaged.rising
  have last := (lastChunk_spec ctx.size (Nat.zero_lt_of_lt some_)).1
  set numbers := List.range' (firstChunk ctx.size span)
    (lastChunk ctx.size span + 1 - firstChunk ctx.size span) with numbers_eq
  have sorted : (numbers.map (chunkOf ctx.size ctx.filesId bytes)).Pairwise
      fun a b => a.n < b.n := List.Pairwise.map _ (fun _ _ lt => lt) List.pairwise_lt_range'
  have strict {l : List (Doc β)} (rising : l.Pairwise fun a b => a.n < b.n) : l.Nodup :=
    rising.imp fun lt same => absurd lt (by rw [same]; exact Nat.lt_irrefl _)
  have uncut (n : Nat) : harmed damage (chunkOf ctx.size ctx.filesId bytes n) =
      some (chunkOf ctx.size ctx.filesId bytes n) := by
    obtain ⟨length, is, long⟩ := whole n
    exact harmed_whole is long
  have perm : (find ctx span chunks).Perm (numbers.map (chunkOf ctx.size ctx.filesId bytes)) := by
    rw [List.perm_ext_iff_of_nodup (strict rising) (strict sorted)]
    intro d
    rw [mem_find, List.mem_map]
    constructor
    · rintro ⟨mem, own, first, most⟩
      have there := damaged.mem_iff.mp (List.mem_filter.mpr ⟨mem, by simp [own]⟩)
      obtain ⟨e, mem', is⟩ := List.mem_filterMap.mp there
      obtain ⟨n, -, rfl⟩ := List.mem_map.mp mem'
      rw [uncut] at is
      cases is
      have numbered : (chunkOf ctx.size ctx.filesId bytes n).n = n := rfl
      rw [numbered] at first most
      exact ⟨n, List.mem_range'_1.mpr ⟨first, by omega⟩, rfl⟩
    · rintro ⟨n, mem, rfl⟩
      obtain ⟨first, most⟩ := List.mem_range'_1.mp mem
      have below : n * ctx.size < bytes.length := by
        have : n * ctx.size ≤ lastChunk ctx.size span * ctx.size :=
          Nat.mul_le_mul_right _ (by omega)
        omega
      have there : chunkOf ctx.size ctx.filesId bytes n ∈
          chunks.filter fun d => d.filesId = ctx.filesId :=
        damaged.mem_iff.mpr (List.mem_filterMap.mpr ⟨_, List.mem_map.mpr
          ⟨n, List.mem_range.mpr (lt_chunkCount.mpr below), rfl⟩, uncut n⟩)
      exact ⟨(List.mem_filter.mp there).1, rfl, first, by show n ≤ _; omega⟩
  exact perm.eq_of_pairwise (fun a b _ _ lt gt => absurd lt (Nat.lt_asymm gt)) rising sorted

end Found

/-! Reads. -/

/-- The stream of a range after some events. -/
def readRun (ctx : FileContext) (length : Nat) (range : ByteRange) (chunks : List (Doc β))
    (events : List StreamEvent) : PullStream (Reader β) (List β) CorruptFileError :=
  events.foldl (step (pull ctx (spanOf length range))) (readChunks ctx length range chunks)

/-- What goes on without a reader. -/
def readOn (ctx : FileContext) (length : Nat) (range : ByteRange) :
    PullStream (Reader β) (List β) CorruptFileError →
      PullStream (Reader β) (List β) CorruptFileError :=
  progress (pull ctx (spanOf length range))

/-- Every read is settled, and a stream that ends without failing has given these bytes. -/
def Reads (ctx : FileContext) (length : Nat) (range : ByteRange) (chunks : List (Doc β))
    (bytes : List β) : Prop :=
  (∀ events, ∃ n, ((readOn ctx length range)^[n]
    (readRun ctx length range chunks events)).pending = 0) ∧
  ∀ events, .done ∈ (readRun ctx length range chunks events).results →
    (valuesOf (readRun ctx length range chunks events).results).flatten = bytes

/-- Each chunk of a span that is read, none before it being missing, holds a byte of the span. -/
def Yields (ctx : FileContext) (span : Span) (chunks : List (Doc β)) : Prop :=
  span.start < span.stop → ∀ d ∈ chunks, d.filesId = ctx.filesId →
    firstChunk ctx.size span ≤ d.n → d.n ≤ lastChunk ctx.size span →
    (∀ n, firstChunk ctx.size span ≤ n → n < d.n →
      ∃ e ∈ chunks, e.filesId = ctx.filesId ∧ e.n = n) →
    span.start - d.n * ctx.size < d.data.length

theorem readRun_empty {ctx : FileContext} {length : Nat} {range : ByteRange}
    {chunks : List (Doc β)} (none_ : (spanOf length range).stop = (spanOf length range).start)
    (events : List StreamEvent) : (readRun ctx length range chunks events).pending = 0 ∧
      ∃ reads, (readRun ctx length range chunks events).results = List.replicate reads .done := by
  obtain ⟨started, reads, is⟩ := @closed_foldl _ _ _ (pull ctx (spanOf length range))
    ({ cursor := [], expected := 0, sent := 0 } : Reader β) events
  rw [readRun, readChunks]
  dsimp only
  rw [if_pos none_, is]
  exact ⟨rfl, reads, rfl⟩

theorem readRun_some {ctx : FileContext} {length : Nat} {range : ByteRange}
    {chunks : List (Doc β)} (some_ : (spanOf length range).start < (spanOf length range).stop)
    (events : List StreamEvent) : readRun ctx length range chunks events =
      PullStream.run (pull ctx (spanOf length range))
        { cursor := find ctx (spanOf length range) chunks
          expected := firstChunk ctx.size (spanOf length range), sent := 0 } events := by
  rw [readRun, readChunks]
  dsimp only
  rw [if_neg (Nat.ne_of_gt some_), PullStream.run]

/-- A query's chunks yield nothing just where its pulls do. -/
theorem yields_iff {ctx : FileContext} {span : Span} {bytes : List β} {damage : Nat → Option Nat}
    {chunks : List (Doc β)} (some_ : span.start < span.stop)
    (damaged : Damaged ctx bytes damage chunks) (sent : Nat) :
    .nothing ∉ script ctx span (find ctx span chunks) (firstChunk ctx.size span) sent ↔
      Yields ctx span chunks := by
  have late : ∀ d ∈ find ctx span chunks, firstChunk ctx.size span ≤ d.n :=
    fun d mem => (mem_find.mp mem).2.2.1
  have cut_ {d : Doc β} (first : firstChunk ctx.size span ≤ d.n)
      (last : d.n ≤ lastChunk ctx.size span) :
      cut ctx.size span d.n d.data = [] ↔ ¬ span.start - d.n * ctx.size < d.data.length := by
    obtain ⟨-, -, below, above⟩ := upTo_spec some_ first last
    rw [← List.length_eq_zero_iff, cut_length]
    omega
  rw [nothing_mem_script ctx span _ _ _ late damaged.rising]
  constructor
  · intro none_ _ d mem own first last before
    by_contra short
    refine none_ ⟨d, ⟨mem_find.mpr ⟨mem, own, first, last⟩, fun n le lt => ?_⟩,
      (cut_ first last).mpr short⟩
    obtain ⟨e, mem', own', rfl⟩ := before n le lt
    exact ⟨e, mem_find.mpr ⟨mem', own', le, by omega⟩, rfl⟩
  · rintro yields ⟨d, ⟨mem, before⟩, none_⟩
    obtain ⟨mem, own, first, last⟩ := mem_find.mp mem
    refine (cut_ first last).mp none_ (yields some_ d mem own first last fun n le lt => ?_)
    obtain ⟨e, mem', is⟩ := before n le lt
    obtain ⟨mem', own', -⟩ := mem_find.mp mem'
    exact ⟨e, mem', own', is⟩

/-- A stream that ended without failing has given what is wanted. -/
theorem readRun_exact {ctx : FileContext} {bytes : List β} {damage : Nat → Option Nat}
    {chunks : List (Doc β)} (damaged : Damaged ctx bytes damage chunks) {range : ByteRange}
    (some_ : (spanOf bytes.length range).start < (spanOf bytes.length range).stop)
    {events : List StreamEvent}
    (done : .done ∈ (readRun ctx bytes.length range chunks events).results) :
    (valuesOf (readRun ctx bytes.length range chunks events).results).flatten =
      range.of bytes := by
  have within := (spanOf_spec bytes.length range).2
  rw [← spanOf_bytes bytes range]
  rw [readRun_some some_] at done ⊢
  set span := spanOf bytes.length range
  obtain ⟨before, fin, last, is, goes, stops, chain⟩ :=
    script_chain ctx span (find ctx span chunks) (firstChunk ctx.size span) 0
  have noDone (values : List (List β)) :
      (.done : ReadResult (List β) CorruptFileError) ∉ values.map .value := by simp
  obtain le | ⟨reads, results⟩ := results_of_chain goes stops chain events
  · exact absurd (le.subset done) (noDone _)
  · rw [results] at done ⊢
    obtain mem | mem := List.mem_append.mp done
    · exact absurd mem (noDone _)
    · obtain ⟨-, ends_⟩ := List.mem_replicate.mp mem
      have closed : fin = .closed := by
        cases fin with
        | value v => exact absurd trivial stops
        | nothing => exact absurd trivial stops
        | closed => rfl
        | failed error => cases ends_
      rw [closed] at is
      have between : ∀ d ∈ find ctx span chunks, firstChunk ctx.size span ≤ d.n ∧
          d.n ≤ lastChunk ctx.size span ∧ d.data <+: sliceOf ctx.size bytes d.n := by
        intro d mem
        obtain ⟨mem, own, first, last⟩ := mem_find.mp mem
        exact ⟨first, last, damaged.prefix_ mem own⟩
      have whole := script_closed ctx some_ _ between (sofar_start ctx.size span bytes) is
      rw [valuesOf_append, valuesOf_map, ← ends_, valuesOf_done, List.append_nil]
      exact whole

theorem readRun_settles {ctx : FileContext} {bytes : List β} {damage : Nat → Option Nat}
    {chunks : List (Doc β)} (damaged : Damaged ctx bytes damage chunks) {range : ByteRange}
    (some_ : (spanOf bytes.length range).start < (spanOf bytes.length range).stop) :
    (∀ events, ∃ n, ((readOn ctx bytes.length range)^[n]
        (readRun ctx bytes.length range chunks events)).pending = 0) ↔
      Yields ctx (spanOf bytes.length range) chunks := by
  rw [← yields_iff some_ damaged 0]
  simp only [readRun_some some_, readOn]
  set span := spanOf bytes.length range
  obtain ⟨before, fin, last, is, goes, stops, chain⟩ :=
    script_chain ctx span (find ctx span chunks) (firstChunk ctx.size span) 0
  rw [is]
  have last_ : .nothing ∉ before ++ [fin] ↔ .nothing ∉ before := by
    have notFin : .nothing ≠ fin := fun is => stops (is ▸ trivial)
    simp [notFin]
  rw [last_, ← productive_iff goes stops chain]
  exact settles_iff

/-- Of damaged chunks: no read ends on other bytes, and every read is settled just where each
chunk that is read yields some. -/
theorem reads_iff_yields {ctx : FileContext} {bytes : List β} {damage : Nat → Option Nat}
    {chunks : List (Doc β)} (damaged : Damaged ctx bytes damage chunks) (range : ByteRange) :
    Reads ctx bytes.length range chunks (range.of bytes) ↔
      Yields ctx (spanOf bytes.length range) chunks := by
  obtain some_ | none_ := Nat.lt_or_eq_of_le (spanOf_spec bytes.length range).1
  · rw [Reads, readRun_settles damaged some_]
    exact and_iff_left fun events done => readRun_exact damaged some_ done
  · refine iff_of_true ⟨fun events => ⟨0, (readRun_empty none_.symm events).1⟩, fun events _ => ?_⟩
      fun some_ => absurd none_ (Nat.ne_of_lt some_)
    obtain ⟨-, reads, is⟩ := @readRun_empty _ ctx _ _ chunks none_.symm events
    rw [is, valuesOf_done, ← spanOf_bytes, none_, Nat.sub_self]
    rfl

/-- Of whole chunks the reads are the bytes of the range, in chunks that hold some, and then the
end. -/
theorem reads_whole {ctx : FileContext} {bytes : List β} {damage : Nat → Option Nat}
    {chunks : List (Doc β)} (damaged : Damaged ctx bytes damage chunks)
    (whole : ∀ n, ∃ length, damage n = some length ∧ (ctx.size : Nat) ≤ length)
    (range : ByteRange) : ∃ parts : List (List β), parts.flatten = range.of bytes ∧
      [] ∉ parts ∧ ∀ events,
        (∃ n, ((readOn ctx bytes.length range)^[n]
          (readRun ctx bytes.length range chunks events)).pending = 0) ∧
        ((readRun ctx bytes.length range chunks events).results <+: parts.map .value ∨
          ∃ reads, (readRun ctx bytes.length range chunks events).results =
            parts.map .value ++ List.replicate reads .done) := by
  obtain some_ | none_ := Nat.lt_or_eq_of_le (spanOf_spec bytes.length range).1
  swap
  · refine ⟨[], ?_, List.not_mem_nil, fun events => ⟨⟨0, (readRun_empty none_.symm events).1⟩,
      .inr (readRun_empty none_.symm events).2⟩⟩
    rw [← spanOf_bytes, none_, Nat.sub_self]
    rfl
  have within := (spanOf_spec bytes.length range).2
  have wanted := spanOf_bytes bytes range
  have settles := readRun_settles damaged some_
  simp only [readRun_some some_] at settles ⊢
  set span := spanOf bytes.length range
  have firstPlace := firstChunk_le ctx.size span
  have lastPlace := (lastChunk_spec ctx.size (Nat.zero_lt_of_lt some_)).2
  have ordered : firstChunk ctx.size span ≤ lastChunk ctx.size span := by
    by_contra reversed
    have : (lastChunk ctx.size span + 1) * ctx.size ≤ firstChunk ctx.size span * ctx.size :=
      Nat.mul_le_mul_right _ (by omega)
    omega
  set numbers := List.range' (firstChunk ctx.size span)
    (lastChunk ctx.size span + 1 - firstChunk ctx.size span) with numbers_eq
  have member {n : Nat} (mem : n ∈ numbers) :
      firstChunk ctx.size span ≤ n ∧ n ≤ lastChunk ctx.size span := by
    obtain ⟨first, last⟩ := List.mem_range'_1.mp mem
    exact ⟨first, by omega⟩
  have place : 0 = upTo ctx.size span (firstChunk ctx.size span) - span.start := by
    rw [upTo]
    omega
  have found := find_whole some_ within damaged whole
  have script_ := script_whole ctx some_ within
    (lastChunk ctx.size span + 1 - firstChunk ctx.size span) (Nat.le_refl _) (by omega) place
  rw [← numbers_eq] at found script_
  rw [← found] at script_
  set parts := numbers.map fun n => cut ctx.size span n (sliceOf ctx.size bytes n) with parts_eq
  have values : numbers.map (fun n => (.value (cut ctx.size span n (sliceOf ctx.size bytes n)) :
      Pulled (List β) CorruptFileError)) = parts.map .value := by
    rw [parts_eq, List.map_map]
    rfl
  rw [values] at script_
  obtain ⟨before, fin, last, is, goes, stops, chain⟩ :=
    script_chain ctx span (find ctx span chunks) (firstChunk ctx.size span) 0
  obtain ⟨rfl, rfl⟩ : before = parts.map .value ∧ fin = .closed := by
    obtain ⟨same, last⟩ := List.append_inj' (is.symm.trans script_) rfl
    exact ⟨same, List.singleton_inj.mp last⟩
  refine ⟨parts, ?_, ?_, fun events => ⟨?_, ?_⟩⟩
  · have between : ∀ d ∈ find ctx span chunks, firstChunk ctx.size span ≤ d.n ∧
        d.n ≤ lastChunk ctx.size span ∧ d.data <+: sliceOf ctx.size bytes d.n := by
      intro d mem
      obtain ⟨mem, own, first, last⟩ := mem_find.mp mem
      exact ⟨first, last, damaged.prefix_ mem own⟩
    have all := script_closed ctx some_ _ between (sofar_start ctx.size span bytes) is
    rw [given_map, List.nil_append] at all
    rw [all, wanted]
  · intro mem
    obtain ⟨n, mem, none_⟩ := List.mem_map.mp mem
    obtain ⟨first, last⟩ := member mem
    exact (cut_whole some_ first last within).2 none_
  · refine settles.mpr ?_ events
    rw [← yields_iff some_ damaged 0, script_]
    simp
  · have results := results_of_chain goes stops chain events
    rw [given_map] at results
    exact results

theorem damaged_whole {ctx : FileContext} {bytes : List β} {chunks : List (Doc β)}
    (stored : (chunks.filter fun d => d.filesId = ctx.filesId).Perm
      ((List.range (chunkCount ctx.size bytes.length)).map (chunkOf ctx.size ctx.filesId bytes))) :
    Damaged ctx bytes (fun _ => some ctx.size) chunks := by
  have uncut : ((List.range (chunkCount ctx.size bytes.length)).map
      (chunkOf ctx.size ctx.filesId bytes)).filterMap (harmed fun _ => some (ctx.size : Nat)) =
        (List.range (chunkCount ctx.size bytes.length)).map
          (chunkOf ctx.size ctx.filesId bytes) := by
    generalize List.range (chunkCount ctx.size bytes.length) = numbers
    induction numbers with
    | nil => rfl
    | cons n numbers ih =>
        have same : harmed (fun _ => some (ctx.size : Nat)) (chunkOf ctx.size ctx.filesId bytes n) =
            some (chunkOf ctx.size ctx.filesId bytes n) := harmed_whole rfl (Nat.le_refl _)
        rw [List.map_cons, List.filterMap_cons_some same, ih]
  rw [Damaged, uncut]
  exact stored

/-- What `writeChunks` stores, what reading it gives, and what reading it gives after chunks of
it were removed or cut short. -/
theorem readChunks_iff (ctx : FileContext) (pieces : List (List β)) :
    writeChunks ctx.size ctx.filesId pieces =
      ((List.range (chunkCount ctx.size pieces.flatten.length)).map
        (chunkOf ctx.size ctx.filesId pieces.flatten), pieces.flatten.length) ∧
    (∀ d ∈ (writeChunks ctx.size ctx.filesId pieces).1, d.data ≠ [] ∧
      d.data.length ≤ ctx.size ∧
      (d.n + 1 < chunkCount ctx.size pieces.flatten.length → d.data.length = ctx.size)) ∧
    (∀ chunks, (chunks.filter fun d => d.filesId = ctx.filesId).Perm
        (writeChunks ctx.size ctx.filesId pieces).1 →
      ∀ range : ByteRange, ∃ parts : List (List β), parts.flatten = range.of pieces.flatten ∧
        [] ∉ parts ∧ ∀ events,
          (∃ n, ((readOn ctx pieces.flatten.length range)^[n]
            (readRun ctx pieces.flatten.length range chunks events)).pending = 0) ∧
          ((readRun ctx pieces.flatten.length range chunks events).results <+:
              parts.map .value ∨
            ∃ reads, (readRun ctx pieces.flatten.length range chunks events).results =
              parts.map .value ++ List.replicate reads .done)) ∧
    ∀ (damage : Nat → Option Nat) (chunks : List (Doc β)),
      (chunks.filter fun d => d.filesId = ctx.filesId).Perm
        ((writeChunks ctx.size ctx.filesId pieces).1.filterMap (harmed damage)) →
      ∀ range : ByteRange,
        Reads ctx pieces.flatten.length range chunks (range.of pieces.flatten) ↔
          Yields ctx (spanOf pieces.flatten.length range) chunks := by
  have written := writeChunks_spec ctx.size ctx.filesId pieces
  refine ⟨written, ?_, ?_, ?_⟩
  · rw [written]
    intro d mem
    obtain ⟨n, there, rfl⟩ := List.mem_map.mp mem
    have inside := lt_chunkCount.mp (List.mem_range.mp there)
    have length : (chunkOf ctx.size ctx.filesId pieces.flatten n).data.length =
        min (ctx.size : Nat) (pieces.flatten.length - n * ctx.size) := by
      rw [chunkOf, sliceOf, List.length_take, List.length_drop]
    have pos := ctx.size.2
    refine ⟨List.ne_nil_of_length_pos (by omega), by omega, fun next => ?_⟩
    have next : (n + 1) * ctx.size < pieces.flatten.length := lt_chunkCount.mp next
    rw [Nat.succ_mul] at next
    omega
  · rw [written]
    intro chunks stored range
    exact reads_whole (damaged_whole stored) (fun n => ⟨_, rfl, Nat.le_refl _⟩) range
  · rw [written]
    intro damage chunks stored range
    exact reads_iff_yields stored range

/-- A file of two chunks whose first was cut to nothing, read from its start: the read waits for
good. -/
theorem readChunks_waits :
    (([⟨"f", 0, []⟩, ⟨"f", 1, [3, 4]⟩] : List (Doc UInt8)).filter fun d => d.filesId = "f").Perm
        ((writeChunks ⟨2, by decide⟩ "f" [[1, 2, 3, 4]]).1.filterMap
          (harmed fun n => if n = 0 then some 0 else some 2)) ∧
      ∀ n, ((readOn ⟨"b", "b.chunks", "f", ⟨2, by decide⟩⟩ 4 ⟨none, none⟩)^[n]
        (readRun ⟨"b", "b.chunks", "f", ⟨2, by decide⟩⟩ 4 ⟨none, none⟩
          ([⟨"f", 0, []⟩, ⟨"f", 1, [3, 4]⟩] : List (Doc UInt8))
          [.read, .start, .answer, .resolve])).pending = 1 := by
  refine ⟨?_, fun n => ?_⟩
  · rw [writeChunks_spec]
    decide
  · have found : find ⟨"b", "b.chunks", "f", ⟨2, by decide⟩⟩ ⟨0, 4⟩
        ([⟨"f", 0, []⟩, ⟨"f", 1, [3, 4]⟩] : List (Doc UInt8)) =
          [⟨"f", 0, []⟩, ⟨"f", 1, [3, 4]⟩] := by
      rw [find]
      exact List.mergeSort_of_pairwise (by decide)
    have span : spanOf 4 ⟨none, none⟩ = ⟨0, 4⟩ := rfl
    rw [readRun, readChunks, span]
    dsimp only
    rw [if_neg (by decide), found]
    exact congrArg PullStream.pending (progress_stuck rfl rfl n)

end NxgtData.GridFs.Stored
