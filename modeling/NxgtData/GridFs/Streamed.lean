import NxgtData.GridFs.Stored
import NxgtData.Lib.PullStream

/-!
`readChunks`: the bytes of a range, a chunk document at each pull. `script` is all that the
pulls come to, from what is left of the cursor.
-/
namespace NxgtData.GridFs.Stored

open PullStream

variable {β : Type}

/-- An end of a range: a byte's place, or one of the infinities. -/
inductive Position where
  | at_ (n : Int)
  | infinite (negative : Bool)

/-- A half-open byte range, `stop` exclusive. -/
structure ByteRange where
  start : Option Position
  stop : Option Position

/-- `Math.max(0, Math.min(position, length))` -/
def Position.within (length : Nat) : Position → Nat
  | .at_ n => (min n length).toNat
  | .infinite negative => if negative then 0 else length

/-- The bytes wanted: `start` is below `stop`, or there are none. -/
structure Span where
  start : Nat
  stop : Nat
  deriving DecidableEq

/-- A range's end, or what stands for one that is left out. -/
def endOf (length other : Nat) : Option Position → Nat
  | none => other
  | some position => position.within length

def spanOf (length : Nat) (range : ByteRange) : Span :=
  let start := endOf length 0 range.start
  ⟨start, max start (endOf length length range.stop)⟩

structure CorruptFileError where
  message : String
  collection : String
  id : String
  deriving DecidableEq

/-- What `readChunks` knows of its file and its bucket. -/
structure FileContext where
  name : String
  collection : String
  filesId : String
  size : ChunkSize

def missingChunk (ctx : FileContext) (n : Nat) : CorruptFileError where
  message := s!"Chunk {n} of file {ctx.filesId} in \"{ctx.name}\" is missing"
  collection := ctx.collection
  id := ctx.filesId

def shortFile (ctx : FileContext) (wanted got : Nat) : CorruptFileError where
  message := s!"File {ctx.filesId} in \"{ctx.name}\" reads {got} bytes where its " ++
    s!"chunks should hold {wanted}: a chunk of it was truncated"
  collection := ctx.collection
  id := ctx.filesId

def firstChunk (size : ChunkSize) (span : Span) : Nat := span.start / size

/-- `Math.ceil(end / chunkSize) - 1` -/
def lastChunk (size : ChunkSize) (span : Span) : Nat := (span.stop + size - 1) / size - 1

/-- The chunk documents of a file that a query for a span finds, in the order of their numbers. -/
def find (ctx : FileContext) (span : Span) (chunks : List (Doc β)) : List (Doc β) :=
  (chunks.filter fun d => d.filesId = ctx.filesId ∧ firstChunk ctx.size span ≤ d.n ∧
    d.n ≤ lastChunk ctx.size span).mergeSort fun a b => a.n ≤ b.n

/-- What is left of the cursor, and the two counts. -/
structure Reader (β : Type) where
  cursor : List (Doc β)
  expected : Nat
  sent : Nat

/-- The bytes of a chunk that a span wants. -/
def cut (size : ChunkSize) (span : Span) (expected : Nat) (data : List β) : List β :=
  let start := span.start - expected * size
  let stop := min data.length (span.stop - expected * size)
  (data.drop start).take (stop - start)

def pull (ctx : FileContext) (span : Span) (r : Reader β) :
    Pulled (List β) CorruptFileError × Reader β :=
  match r.cursor with
  | [] =>
      (if r.expected ≤ lastChunk ctx.size span then .failed (missingChunk ctx r.expected)
        else if r.sent ≠ span.stop - span.start then
          .failed (shortFile ctx (span.stop - span.start) r.sent)
        else .closed, r)
  | d :: cursor =>
      if d.n ≠ r.expected then (.failed (missingChunk ctx r.expected), { r with cursor })
      else
        let start := span.start - r.expected * ctx.size
        let stop := min d.data.length (span.stop - r.expected * ctx.size)
        if stop > start then
          (.value (cut ctx.size span r.expected d.data),
            { cursor, expected := r.expected + 1, sent := r.sent + (stop - start) })
        else (.nothing, { r with cursor, expected := r.expected + 1 })

/-- The stream, over the chunk documents that are stored when it is read. -/
def readChunks (ctx : FileContext) (length : Nat) (range : ByteRange) (chunks : List (Doc β)) :
    PullStream (Reader β) (List β) CorruptFileError :=
  let span := spanOf length range
  if span.stop = span.start then
    { fresh { cursor := [], expected := 0, sent := 0 } with state := .closed }
  else fresh { cursor := find ctx span chunks, expected := firstChunk ctx.size span, sent := 0 }

/-! The pulls. -/

/-- What all pulls come to until one fails or closes. -/
def script (ctx : FileContext) (span : Span) :
    List (Doc β) → Nat → Nat → List (Pulled (List β) CorruptFileError)
  | [], expected, sent => [(pull ctx span ({ cursor := [], expected, sent } : Reader β)).1]
  | d :: cursor, expected, sent =>
      if d.n ≠ expected then [.failed (missingChunk ctx expected)]
      else
        (if cut ctx.size span expected d.data = [] then .nothing
          else .value (cut ctx.size span expected d.data)) ::
            script ctx span cursor (expected + 1)
              (sent + (cut ctx.size span expected d.data).length)

theorem cut_length (size : ChunkSize) (span : Span) (expected : Nat) (data : List β) :
    (cut size span expected data).length =
      min data.length (span.stop - expected * size) - (span.start - expected * size) := by
  rw [cut, List.length_take, List.length_drop]
  omega

theorem pull_cons (ctx : FileContext) (span : Span) (d : Doc β) (cursor : List (Doc β))
    (sent : Nat) : pull ctx span { cursor := d :: cursor, expected := d.n, sent } =
      (if cut ctx.size span d.n d.data = [] then .nothing
        else .value (cut ctx.size span d.n d.data),
        { cursor, expected := d.n + 1, sent := sent + (cut ctx.size span d.n d.data).length }) := by
  have length := cut_length ctx.size span d.n d.data
  rw [pull]
  dsimp only
  rw [if_neg (by simp)]
  split
  next more =>
    have some_ : cut ctx.size span d.n d.data ≠ [] := List.ne_nil_of_length_pos (by omega)
    rw [if_neg some_, length]
  next =>
    have none_ : cut ctx.size span d.n d.data = [] := List.eq_nil_of_length_eq_zero (by omega)
    rw [if_pos none_, none_]
    rfl

/-- The script is what the pulls come to, and only its last ends the stream. -/
theorem script_chain (ctx : FileContext) (span : Span) (cursor : List (Doc β))
    (expected sent : Nat) :
    ∃ before fin last, script ctx span cursor expected sent = before ++ [fin] ∧
      (∀ o ∈ before, Goes o) ∧ ¬ Goes fin ∧
      Chain (pull ctx span) { cursor, expected, sent } (before ++ [fin]) last := by
  induction cursor generalizing expected sent with
  | nil =>
      refine ⟨[], _, _, rfl, by simp, ?_, .cons (.nil _)⟩
      rw [pull]
      dsimp only
      split
      · simp [Goes]
      · split <;> simp [Goes]
  | cons d cursor ih =>
      rw [script]
      split
      next gap =>
        have failed : (pull ctx span { cursor := d :: cursor, expected, sent }).1 =
            .failed (missingChunk ctx expected) := by
          rw [pull]
          dsimp only
          rw [if_pos gap]
        have chain := (@Chain.nil _ _ _ (pull ctx span)
          { cursor := d :: cursor, expected, sent }).snoc
        rw [failed] at chain
        exact ⟨[], _, _, rfl, by simp, by simp [Goes], chain⟩
      next there =>
        obtain rfl : d.n = expected := not_not.mp there
        have here := pull_cons ctx span d cursor sent
        obtain ⟨before, fin, last, is, goes, stops, chain⟩ :=
          ih (d.n + 1) (sent + (cut ctx.size span d.n d.data).length)
        refine ⟨_ :: before, fin, last, by rw [is]; rfl, ?_, stops, ?_⟩
        · intro o mem
          obtain rfl | mem := List.mem_cons.mp mem
          · split <;> trivial
          · exact goes o mem
        · rw [List.cons_append]
          have first : (pull ctx span { cursor := d :: cursor, expected := d.n, sent }).1 =
            if cut ctx.size span d.n d.data = [] then .nothing
            else .value (cut ctx.size span d.n d.data) := by rw [here]
          rw [← first]
          refine .cons ?_
          rw [here]
          exact chain

end NxgtData.GridFs.Stored
