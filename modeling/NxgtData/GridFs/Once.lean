import Mathlib.Data.List.MinMax
import NxgtData.GridFs.Chunks

/-!
Calls of `putOnce` in one bucket. A call writes its chunks under an id of its own, then
claims the id its bytes decide: chunk 0 first, the rest, and the `files` document last.
Every driver call may fail before or after it took effect, and a multi-document update or
delete takes effect one document after the other.
-/
namespace NxgtData.GridFs

variable {β δ ι : Type}

/-- What a call is given. -/
structure Source (β : Type) where
  pieces : List (List β)
  chunkSize : ChunkSize
  /-- It can be read more than once, so that its digest is looked up first. -/
  blob : Bool
  /-- The clock when its document is built. -/
  uploadDate : Nat

def Source.bytes (s : Source β) : List β := s.pieces.flatten

/-- The chunks the call writes. -/
def Source.written (s : Source β) : List (List β) := writeChunks s.chunkSize s.pieces

/-- SHA-256, and the twelve bytes of it that an `ObjectId` holds. -/
structure Hashing (β δ ι : Type) where
  digest : List β → δ
  onceId : δ → ι

/-- The id of a file: a new `ObjectId` of a call's own, the one some bytes decide, or
that of a file which `put` stored. -/
inductive FileId (ι : Type) where
  | own (call : Nat)
  | once (id : ι)
  | put (n : Nat)
deriving DecidableEq

/-- A chunk document. Its `_id` is the call's that wrote it, and its place there. -/
structure Chunk (β ι : Type) where
  id : Nat × Nat
  filesId : FileId ι
  n : Nat
  data : List β
deriving DecidableEq

/-- A `files` document. -/
structure File (β δ ι : Type) where
  id : FileId ι
  length : Nat
  chunkSize : ChunkSize
  uploadDate : Nat
  digest : δ
  /-- The call that inserted it, and the bytes it was given. -/
  by_ : Nat
  bytes : List β
deriving DecidableEq

/-- Where a call is. Its retries say how often it may still claim the id anew. -/
inductive Phase (β δ ι : Type) where
  | idle
  /-- It looks for the digest of its blob. -/
  | probing
  /-- It has inserted so many chunks. -/
  | writing (n : Nat)
  /-- It looks for a file with its digest, before it claims anything. -/
  | checking
  | movingFirst (retries : Nat)
  | movingRest (retries : Nat)
  | inserting (retries : Nat)
  /-- `winner`: it looks for the file under the id. -/
  | looking (retries : Nat) (claimed : Bool)
  /-- `winner`: it found none, and looks whether chunk 0 is still there. -/
  | holding (retries : Nat)
  /-- The claim was let go: it looks for its digest before it claims again. -/
  | again (retries : Nat)
  /-- It drops what it wrote, and then answers a file or rejects. -/
  | dropping (answer : Option (File β δ ι))
  | resolved (file : File β δ ι) (stored : Bool)
  | rejected
  | stopped
deriving DecidableEq

structure World (β δ ι : Type) where
  chunks : List (Chunk β ι) := []
  files : List (File β δ ι)
  phase : Nat → Phase β δ ι := fun _ => .idle

variable (hashing : Hashing β δ ι) (sources : Nat → Source β)

def onceIdOf (c : Nat) : FileId ι := .once (hashing.onceId (hashing.digest (sources c).bytes))

/-- The `files` document of a call. -/
def documentOf (c : Nat) : File β δ ι :=
  { id := onceIdOf hashing sources c, length := (sources c).bytes.length
    chunkSize := (sources c).chunkSize, uploadDate := (sources c).uploadDate
    digest := hashing.digest (sources c).bytes, by_ := c, bytes := (sources c).bytes }

namespace World

def goto (w : World β δ ι) (c : Nat) (phase : Phase β δ ι) : World β δ ι :=
  { w with phase := fun i => if i = c then phase else w.phase i }

/-- `throw`: what was written is dropped on the way out. -/
def reject (w : World β δ ι) (c : Nat) : World β δ ι := w.goto c (.dropping none)

variable [DecidableEq δ] [DecidableEq ι]

/-- The oldest file with the digest of the call's bytes. -/
def fileWithDigest (w : World β δ ι) (c : Nat) : Option (File β δ ι) :=
  (w.files.filter (·.digest = hashing.digest (sources c).bytes)).argmin (·.uploadDate)

/-- The file under the id the call's bytes decide. -/
def findFile (w : World β δ ι) (c : Nat) : Option (File β δ ι) :=
  w.files.find? (·.id = onceIdOf hashing sources c)

/-- A chunk `n` of another `_id` is under the id already. -/
def taken (w : World β δ ι) (c n : Nat) : Bool :=
  w.chunks.any fun ch => ch.filesId = onceIdOf hashing sources c && ch.n = n && ch.id ≠ (c, n)

/-- Chunk `n` of the call goes under the id. -/
def move (w : World β δ ι) (c n : Nat) : World β δ ι :=
  { w with chunks := w.chunks.map fun ch =>
      if ch.id = (c, n) then { ch with filesId := onceIdOf hashing sources c } else ch }

/-- The insert of chunk `n`. -/
def writeChunk (w : World β δ ι) (c n : Nat) : World β δ ι :=
  match (sources c).written[n]? with
  | none => w
  | some data =>
      { w with chunks := w.chunks ++ [{ id := (c, n), filesId := .own c, n, data }] }

def dropChunk (w : World β δ ι) (c n : Nat) : World β δ ι :=
  { w with chunks := w.chunks.filter (·.id ≠ (c, n)) }

/-- The insert of the `files` document, unless the id is taken. -/
def insertFile (w : World β δ ι) (c : Nat) : World β δ ι :=
  if (w.findFile hashing sources c).isSome then w
  else { w with files := w.files ++ [documentOf hashing sources c] }

/-- The beginning of `claim`: a file of no bytes claims its document alone. -/
def claim (w : World β δ ι) (c retries : Nat) : World β δ ι :=
  if (sources c).written.isEmpty then w.goto c (.inserting retries)
  else w.goto c (.movingFirst retries)

/-- The chunks of the call that are not under the id, chunk 0 apart. -/
def unmoved (w : World β δ ι) (c : Nat) : Bool :=
  w.chunks.any fun ch =>
    ch.id.1 = c && ch.id.2 ≠ 0 && ch.filesId ≠ onceIdOf hashing sources c

end World

/-- What happens next in a call. -/
inductive Act where
  | start
  /-- The driver call that the call waits for resolves. -/
  | answer
  /-- It rejects, and took effect or not. -/
  | fail (took : Bool)
  /-- The update of the rest moves a chunk. -/
  | moveRest (n : Nat)
  /-- The update of the rest meets a chunk that is there. -/
  | stray (n : Nat)
  /-- The delete of what was written deletes a chunk. -/
  | drop (n : Nat)
  /-- The deadline of the wait passed. -/
  | expire
  /-- The process stops. -/
  | stop
deriving DecidableEq

namespace World
variable [DecidableEq δ] [DecidableEq ι]

/-- The driver call that call `c` waits for resolves. -/
def answer (w : World β δ ι) (c : Nat) : World β δ ι :=
  match w.phase c with
  | .probing =>
      match w.fileWithDigest hashing sources c with
      | some file => w.goto c (.resolved file false)
      | none => w.goto c (.writing 0)
  | .writing n =>
      if n < (sources c).written.length then (w.writeChunk sources c n).goto c (.writing (n + 1))
      else w.goto c .checking
  | .checking =>
      match w.fileWithDigest hashing sources c with
      | some file => w.goto c (.dropping (some file))
      | none => w.claim sources c 1
  | .movingFirst retries =>
      if w.taken hashing sources c 0 then w.goto c (.looking retries true)
      else (w.move hashing sources c 0).goto c
        (if (sources c).written.length = 1 then .inserting retries else .movingRest retries)
  | .movingRest retries =>
      if w.unmoved hashing sources c then w else w.goto c (.inserting retries)
  | .inserting retries =>
      if (w.findFile hashing sources c).isSome then
        w.goto c (.looking retries !(sources c).written.isEmpty)
      else (w.insertFile hashing sources c).goto c
        (.resolved (documentOf hashing sources c) true)
  | .looking retries claimed =>
      match w.findFile hashing sources c with
      | some file =>
          if file.digest = hashing.digest (sources c).bytes then w.goto c (.dropping (some file))
          else w.reject c
      | none => if claimed then w.goto c (.holding retries) else w
  | .holding retries =>
      if w.chunks.any fun ch => ch.filesId = onceIdOf hashing sources c && ch.n = 0 then
        w.goto c (.looking retries true)
      else if retries = 0 then w.reject c
      else w.goto c (.again retries)
  | .again retries =>
      match w.fileWithDigest hashing sources c with
      | some file => w.goto c (.dropping (some file))
      | none => w.claim sources c (retries - 1)
  | .dropping answer =>
      match answer with
      | some file => w.goto c (.resolved file false)
      | none => w.goto c .rejected
  | _ => w

/-- The driver call that call `c` waits for rejects. -/
def fail (w : World β δ ι) (c : Nat) (took : Bool) : World β δ ι :=
  match w.phase c with
  | .probing => w.goto c .rejected
  | .writing n => (if took then w.writeChunk sources c n else w).reject c
  | .movingFirst _ =>
      (if took && !w.taken hashing sources c 0 then w.move hashing sources c 0 else w).reject c
  | .inserting _ => (if took then w.insertFile hashing sources c else w).reject c
  | .checking | .movingRest _ | .looking _ _ | .holding _ | .again _ => w.reject c
  | .dropping (some file) => w.goto c (.resolved file false)
  | .dropping none => w.goto c .rejected
  | _ => w

def step (w : World β δ ι) (c : Nat) : Act → World β δ ι
  | .start =>
      match w.phase c with
      | .idle => w.goto c (if (sources c).blob then .probing else .writing 0)
      | _ => w
  | .answer => w.answer hashing sources c
  | .fail took => w.fail hashing sources c took
  | .moveRest n =>
      match w.phase c with
      | .movingRest _ =>
          if n = 0 || w.taken hashing sources c n then w else w.move hashing sources c n
      | _ => w
  | .stray n =>
      match w.phase c with
      | .movingRest _ =>
          if n ≠ 0 && n < (sources c).written.length && w.taken hashing sources c n then w.reject c
          else w
      | _ => w
  | .drop n =>
      match w.phase c with
      | .dropping _ => w.dropChunk c n
      | _ => w
  | .expire =>
      match w.phase c with
      | .looking _ _ => w.reject c
      | .holding _ => w.reject c
      | _ => w
  | .stop =>
      match w.phase c with
      | .resolved _ _ | .rejected => w
      | _ => w.goto c .stopped

end World

variable [DecidableEq δ] [DecidableEq ι]

/-- The bucket after acts of the calls, from the files that `put` stored before. -/
def run (files : List (File β δ ι)) (acts : List (Nat × Act)) : World β δ ι :=
  acts.foldl (fun w a => w.step hashing sources a.1 a.2)
    { files := files.mapIdx fun k file => { file with id := .put k } }

end NxgtData.GridFs
