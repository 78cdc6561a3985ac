import NxgtData.GridFs.Streamed

/-!
What a read of a range gives. As many bytes as are wanted are the bytes that are wanted, since a
chunk gives the first of its own; and a read is left waiting where a chunk gives none.
-/
namespace NxgtData.GridFs.Stored

open PullStream

variable {β : Type}

/-! Bytes. -/

/-- The place that the bytes of the chunks before chunk `n` go up to. -/
def upTo (size : ChunkSize) (span : Span) (n : Nat) : Nat :=
  max span.start (min span.stop (n * size))

theorem slices_append (bytes : List β) {a b c : Nat} (ab : a ≤ b) (bc : b ≤ c) :
    (bytes.drop a).take (b - a) ++ (bytes.drop b).take (c - b) = (bytes.drop a).take (c - a) := by
  have here : c - a = (b - a) + (c - b) := by omega
  have there : a + (b - a) = b := by omega
  rw [here, List.take_add, List.drop_drop, there]

theorem firstChunk_le (size : ChunkSize) (span : Span) :
    firstChunk size span * size ≤ span.start ∧ span.start < (firstChunk size span + 1) * size := by
  have pos := size.2
  refine ⟨Nat.div_mul_le_self _ _, ?_⟩
  rw [Nat.mul_comm, firstChunk]
  exact Nat.lt_mul_div_succ _ pos

theorem lastChunk_spec (size : ChunkSize) {span : Span} (some_ : 0 < span.stop) :
    lastChunk size span * size < span.stop ∧ span.stop ≤ (lastChunk size span + 1) * size := by
  have pos := size.2
  have whole := Nat.div_add_mod (span.stop + size - 1) size
  have rest := Nat.mod_lt (span.stop + size - 1) pos
  have one : 1 ≤ (span.stop + size - 1) / size := by
    rw [Nat.one_le_div_iff pos]
    omega
  obtain ⟨k, is⟩ : ∃ k, (span.stop + size - 1) / size = k + 1 :=
    Nat.exists_eq_succ_of_ne_zero (by omega)
  rw [is, Nat.mul_succ] at whole
  rw [lastChunk, is, Nat.add_sub_cancel, Nat.succ_mul, Nat.mul_comm]
  omega

section Within

variable {size : ChunkSize} {span : Span} {bytes : List β} {n : Nat}
  (some_ : span.start < span.stop) (first : firstChunk size span ≤ n)
  (last : n ≤ lastChunk size span)

include some_ first last

/-- Where a chunk's part begins and ends. -/
theorem upTo_spec : upTo size span n = n * size + (span.start - n * size) ∧
    upTo size span (n + 1) = min span.stop (n * size + size) ∧
    n * size < span.stop ∧ span.start < n * size + size := by
  have below : n * size < span.stop := Nat.lt_of_le_of_lt (Nat.mul_le_mul_right _ last)
    (lastChunk_spec size (Nat.zero_lt_of_lt some_)).1
  have above : span.start < n * size + size := by
    have := Nat.mul_le_mul_right size (Nat.succ_le_succ first)
    rw [Nat.succ_mul n] at this
    exact Nat.lt_of_lt_of_le (firstChunk_le size span).2 this
  rw [upTo, upTo, Nat.succ_mul]
  omega

/-- A chunk that was cut short gives the first of the bytes wanted of it. -/
theorem cut_begins {data : List β} (short : data <+: sliceOf size bytes n) :
    cut size span n data <+:
      (bytes.drop (upTo size span n)).take (upTo size span (n + 1) - upTo size span n) := by
  obtain ⟨at_, next, below, above⟩ := upTo_spec some_ first last
  have within : data.length ≤ size := Nat.le_trans short.length_le (by
    rw [sliceOf, List.length_take]
    exact Nat.min_le_left _ _)
  have is : data = (bytes.drop (n * size)).take data.length := by
    have is := List.prefix_iff_eq_take.mp short
    rwa [sliceOf, List.take_take, Nat.min_eq_left within] at is
  have cut_ : cut size span n data = (bytes.drop (upTo size span n)).take
      (min data.length (span.stop - n * size) - (span.start - n * size)) := by
    rw [cut, at_]
    generalize data.length = length at is
    rw [is, List.drop_take, List.drop_drop, List.take_take, Nat.min_eq_left (by omega)]
  rw [cut_]
  exact List.take_prefix_take_left (by omega)

/-- What is wanted of a whole chunk. -/
theorem cut_whole (within : span.stop ≤ bytes.length) :
    cut size span n (sliceOf size bytes n) =
        (bytes.drop (upTo size span n)).take (upTo size span (n + 1) - upTo size span n) ∧
      cut size span n (sliceOf size bytes n) ≠ [] := by
  obtain ⟨at_, next, below, above⟩ := upTo_spec some_ first last
  have length := cut_length size span n (sliceOf size bytes n)
  rw [sliceOf, List.length_take, List.length_drop, ← sliceOf] at length
  have whole : (cut size span n (sliceOf size bytes n)).length =
      ((bytes.drop (upTo size span n)).take
        (upTo size span (n + 1) - upTo size span n)).length := by
    rw [length, List.length_take, List.length_drop]
    omega
  refine ⟨(cut_begins some_ first last (List.prefix_refl _)).eq_of_length whole, ?_⟩
  refine List.ne_nil_of_length_pos ?_
  rw [length]
  omega

end Within

/-- As many bytes as are wanted are the ones that are wanted. -/
structure Sofar (size : ChunkSize) (span : Span) (bytes : List β) (n : Nat) (out : List β) : Prop
    where
  most : out.length ≤ upTo size span n - span.start
  exact_ : out.length = upTo size span n - span.start →
    out = (bytes.drop span.start).take (upTo size span n - span.start)

theorem sofar_start (size : ChunkSize) (span : Span) (bytes : List β) :
    Sofar size span bytes (firstChunk size span) [] := by
  have none_ : upTo size span (firstChunk size span) = span.start := by
    have first := (firstChunk_le size span).1
    rw [upTo]
    omega
  refine ⟨Nat.zero_le _, fun _ => ?_⟩
  rw [none_, Nat.sub_self, List.take_zero]

theorem Sofar.next {size : ChunkSize} {span : Span} {bytes data out : List β} {n : Nat}
    (some_ : span.start < span.stop) (first : firstChunk size span ≤ n)
    (last : n ≤ lastChunk size span) (short : data <+: sliceOf size bytes n)
    (sofar : Sofar size span bytes n out) :
    Sofar size span bytes (n + 1) (out ++ cut size span n data) := by
  obtain ⟨at_, next, below, above⟩ := upTo_spec some_ first last
  have part := cut_begins some_ first last short
  have length := part.length_le
  rw [List.length_take] at length
  have most := sofar.most
  have begins : span.start ≤ upTo size span n := by omega
  have goes : upTo size span n ≤ upTo size span (n + 1) := by omega
  refine ⟨by rw [List.length_append]; omega, fun all => ?_⟩
  rw [List.length_append] at all
  have whole : cut size span n data = _ := part.eq_of_length (by
    rw [List.length_take]
    omega)
  rw [sofar.exact_ (by omega), whole, slices_append bytes begins goes]

/-! Scripts. -/

/-- A stream that closes has given the bytes that are wanted. -/
theorem script_closed (ctx : FileContext) {span : Span} {bytes : List β}
    (some_ : span.start < span.stop) (cursor : List (Doc β))
    (between : ∀ d ∈ cursor, firstChunk ctx.size span ≤ d.n ∧ d.n ≤ lastChunk ctx.size span ∧
      d.data <+: sliceOf ctx.size bytes d.n) {expected : Nat} {out : List β}
    (sofar : Sofar ctx.size span bytes expected out)
    {before : List (Pulled (List β) CorruptFileError)}
    (is : script ctx span cursor expected out.length = before ++ [.closed]) :
    out ++ (given before).flatten = (bytes.drop span.start).take (span.stop - span.start) := by
  induction cursor generalizing expected out before with
  | nil =>
      rw [script] at is
      obtain ⟨rfl, closed⟩ : before = [] ∧ (pull ctx span
          ({ cursor := [], expected, sent := out.length } : Reader β)).1 = .closed := by
        cases before with
        | nil => exact ⟨rfl, List.singleton_inj.mp is⟩
        | cons o before => simp at is
      rw [pull] at closed
      dsimp only at closed
      split at closed
      next => cases closed
      next late =>
        split at closed
        next => cases closed
        next all =>
          have past : upTo ctx.size span expected = span.stop := by
            have ends := (lastChunk_spec ctx.size (Nat.zero_lt_of_lt some_)).2
            have le : (lastChunk ctx.size span + 1) * ctx.size ≤ expected * ctx.size :=
              Nat.mul_le_mul_right _ (by omega)
            rw [upTo]
            omega
          have exact_ := sofar.exact_
          rw [past] at exact_
          rw [given, List.flatten_nil, List.append_nil]
          exact exact_ (not_not.mp all)
  | cons d cursor ih =>
      rw [script] at is
      split at is
      next =>
        cases before with
        | nil => cases is
        | cons o before => simp at is
      next there =>
        obtain rfl : d.n = expected := not_not.mp there
        obtain ⟨first, last, short⟩ := between d List.mem_cons_self
        have next := sofar.next some_ first last short
        rw [← List.length_append] at is
        cases before with
        | nil =>
            have last := (List.cons.inj is).2
            obtain ⟨_, _, _, ends, -⟩ := script_chain ctx span cursor (d.n + 1)
              (out ++ cut ctx.size span d.n d.data).length
            rw [last] at ends
            simp at ends
        | cons o before =>
            obtain ⟨here, rest⟩ := List.cons.inj is
            have whole := ih (fun d mem => between d (List.mem_cons_of_mem _ mem)) next rest
            rw [← whole, ← here, List.append_assoc]
            congr 1
            split
            next none_ =>
              rw [none_]
              rfl
            next => rfl

/-- The script of chunks that are all there and whole. -/
theorem script_whole (ctx : FileContext) {span : Span} {bytes : List β}
    (some_ : span.start < span.stop) (within : span.stop ≤ bytes.length) (count : Nat)
    {expected sent : Nat} (first : firstChunk ctx.size span ≤ expected)
    (last : expected + count = lastChunk ctx.size span + 1)
    (place : sent = upTo ctx.size span expected - span.start) :
    script ctx span ((List.range' expected count).map (chunkOf ctx.size ctx.filesId bytes))
        expected sent =
      (List.range' expected count).map (fun n =>
        .value (cut ctx.size span n (sliceOf ctx.size bytes n))) ++ [.closed] := by
  induction count generalizing expected sent with
  | zero =>
      have ends := (lastChunk_spec ctx.size (Nat.zero_lt_of_lt some_)).2
      have past : upTo ctx.size span expected = span.stop := by
        rw [← last, Nat.add_zero] at ends
        rw [upTo]
        omega
      rw [List.range'_zero, List.map_nil, List.map_nil, script, pull]
      dsimp only
      rw [if_neg (by omega), if_neg (by omega)]
      rfl
  | succ count ih =>
      obtain ⟨whole, full⟩ := @cut_whole _ _ _ bytes _ some_ first (by omega) within
      obtain ⟨at_, next, below, above⟩ := upTo_spec some_ first (by omega : expected ≤ _)
      rw [List.range'_succ, List.map_cons, List.map_cons, script]
      have there : ¬ (chunkOf ctx.size ctx.filesId bytes expected).n ≠ expected := by
        simp [chunkOf]
      rw [if_neg there]
      have data : (chunkOf ctx.size ctx.filesId bytes expected).data =
        sliceOf ctx.size bytes expected := rfl
      rw [data, if_neg full, ih (by omega) (by omega)]
      · rfl
      · rw [whole, List.length_take, List.length_drop, place]
        omega

/-- A chunk that is read, since none of the range before it is missing. -/
def Reached (expected : Nat) (cursor : List (Doc β)) (d : Doc β) : Prop :=
  d ∈ cursor ∧ ∀ n, expected ≤ n → n < d.n → ∃ e ∈ cursor, e.n = n

/-- Only a chunk that is read and gives no byte makes a pull that gives nothing. -/
theorem nothing_mem_script (ctx : FileContext) (span : Span) (cursor : List (Doc β))
    (expected sent : Nat) (late : ∀ d ∈ cursor, expected ≤ d.n)
    (rising : cursor.Pairwise fun a b => a.n < b.n) :
    .nothing ∈ script ctx span cursor expected sent ↔
      ∃ d, Reached expected cursor d ∧ cut ctx.size span d.n d.data = [] := by
  induction cursor generalizing expected sent with
  | nil =>
      refine iff_of_false ?_ ?_
      · rw [script, List.mem_singleton, pull]
        dsimp only
        split
        · simp
        · split <;> simp
      · rintro ⟨d, ⟨mem, -⟩, -⟩
        cases mem
  | cons d cursor ih =>
      obtain ⟨above, rising⟩ := List.pairwise_cons.mp rising
      rw [script]
      split
      next gap =>
        have later : expected < d.n :=
          Nat.lt_of_le_of_ne (late d List.mem_cons_self) (Ne.symm gap)
        refine iff_of_false (by simp) ?_
        rintro ⟨e, ⟨mem, before⟩, -⟩
        have after : ∀ f ∈ d :: cursor, expected < f.n := by
          intro f mem
          obtain rfl | mem := List.mem_cons.mp mem
          · exact later
          · exact Nat.lt_trans later (above f mem)
        obtain ⟨f, mem', is⟩ := before expected (Nat.le_refl _) (after e mem)
        exact absurd is (Nat.ne_of_gt (after f mem'))
      next there =>
        obtain rfl : d.n = expected := not_not.mp there
        rw [List.mem_cons, ih _ _ (fun e mem => above e mem) rising]
        constructor
        · rintro (here | ⟨e, ⟨mem, before⟩, none_⟩)
          · refine ⟨d, ⟨List.mem_cons_self, fun n le lt => absurd lt (Nat.not_lt.mpr le)⟩, ?_⟩
            by_contra some_
            rw [if_neg some_] at here
            cases here
          · refine ⟨e, ⟨List.mem_cons_of_mem _ mem, fun n le lt => ?_⟩, none_⟩
            obtain rfl | lt' := Nat.eq_or_lt_of_le le
            · exact ⟨d, List.mem_cons_self, rfl⟩
            · obtain ⟨f, mem', is⟩ := before n lt' lt
              exact ⟨f, List.mem_cons_of_mem _ mem', is⟩
        · rintro ⟨e, ⟨mem, before⟩, none_⟩
          obtain rfl | mem := List.mem_cons.mp mem
          · exact .inl (by rw [if_pos none_])
          · refine .inr ⟨e, ⟨mem, fun n le lt => ?_⟩, none_⟩
            obtain ⟨f, mem', is⟩ := before n (Nat.le_of_lt le) lt
            obtain rfl | mem' := List.mem_cons.mp mem'
            · exact absurd is (Nat.ne_of_lt le)
            · exact ⟨f, mem', is⟩

end NxgtData.GridFs.Stored
