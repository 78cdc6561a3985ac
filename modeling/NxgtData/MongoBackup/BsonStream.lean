import NxgtData.Lib.Framing

/-!
The documents of a stream of concatenated ones, read as its chunks arrive. The
buffers a reader makes are kept by their addresses, with a log of what it writes
and yields; what a consumer does with a buffer it was given is its own affair.
-/
namespace NxgtData.MongoBackup.Format

abbrev Bytes := List UInt8

/-- `DOCUMENT_MAX_BYTES`. -/
def documentMaxBytes : Nat := 17 * 1024 * 1024

structure MongoBackupError where
  message : String
  code : String

/-- `malformed`. -/
def malformed (place : String) : MongoBackupError where
  message := s!"{place}: an entry is not a sequence of BSON documents"
  code := "MALFORMED"

/-- `getInt32(0, true)` of a view of the bytes, four of them at least. -/
def getInt32 : Bytes → Int
  | b₀ :: b₁ :: b₂ :: b₃ :: _ =>
      let n := b₀.toNat + 256 * b₁.toNat + 65536 * b₂.toNat + 16777216 * b₃.toNat
      if n < 2147483648 then n else n - 4294967296
  | _ => 0

/-- A document's buffer, being filled. -/
structure Filling where
  addr : Nat
  length : Nat
  filled : Nat
  room : filled < length

inductive Event where
  | wrote (addr : Nat)
  | yielded (addr : Nat) (bytes : Bytes)

namespace Event

def addr : Event → Nat
  | wrote a | yielded a _ => a

def document : Event → Option Bytes
  | wrote _ => none
  | yielded _ bytes => some bytes

end Event

/-- `carry`, `document` and `filled`, with the buffers made so far and the log. -/
structure Reader where
  buffers : List Bytes := []
  log : List Event := []
  carry : Bytes := []
  document : Option Filling := none

namespace Reader

def buffer (r : Reader) (addr : Nat) : Bytes := r.buffers.getD addr []

/-- `document = new Uint8Array(length)` and `filled = 0`. -/
def allocate (r : Reader) (length : Nat) (room : 0 < length) : Reader :=
  { r with
    buffers := r.buffers ++ [List.replicate length 0]
    document := some ⟨r.buffers.length, length, 0, room⟩ }

/-- `document.set(piece, filled)`. -/
def set (r : Reader) (d : Filling) (piece : Bytes) : Reader :=
  { r with
    buffers := r.buffers.modify d.addr fun buffer =>
      buffer.take d.filled ++ piece ++ buffer.drop (d.filled + piece.length)
    log := r.log ++ [.wrote d.addr] }

/-- A piece set, and the document yielded when that fills it. -/
def fill (r : Reader) (d : Filling) (piece : Bytes) : Reader :=
  let r := r.set d piece
  if room : d.filled + piece.length < d.length then
    { r with document := some ⟨d.addr, d.length, d.filled + piece.length, room⟩ }
  else
    { r with log := r.log ++ [.yielded d.addr (r.buffer d.addr)], document := none }

end Reader

/-- The loop over a chunk's data from `offset` on, and whether it threw. -/
def scan (data : Bytes) (offset : Nat) (r : Reader) : Reader × Bool :=
  if more : offset < data.length then
    match filling : r.document with
    | some d =>
        let n := min (d.length - d.filled) (data.length - offset)
        scan data (offset + n) (r.fill d ((data.drop offset).take n))
    | none =>
        if data.length - offset < 4 then ({ r with carry := data.drop offset }, false)
        else
          let length := getInt32 (data.drop offset)
          if bad : length < 5 ∨ (documentMaxBytes : Int) < length then (r, true)
          else scan data offset (r.allocate length.toNat (by omega))
  else (r, false)
termination_by (data.length - offset, if r.document.isSome then 0 else 1)
decreasing_by
  next =>
    have := d.room
    refine Prod.Lex.left _ _ ?_
    omega
  next => exact Prod.Lex.right _ (by simp [filling, Reader.allocate])

def concat (a b : Bytes) : Bytes := a ++ b

/-- One chunk, after what was carried over. -/
def readChunk (r : Reader) (chunk : Bytes) : Reader × Bool :=
  let data := if r.carry.length = 0 then chunk else concat r.carry chunk
  scan data 0 { r with carry := [] }

/-- A generator that ended or threw, with what it yielded until then. -/
structure Run where
  reader : Reader
  outcome : Except MongoBackupError Unit

def readChunks (place : String) : List Bytes → Reader → Run
  | [], r =>
      if r.document.isSome ∨ 0 < r.carry.length then ⟨r, .error (malformed place)⟩
      else ⟨r, .ok ()⟩
  | chunk :: rest, r =>
      match readChunk r chunk with
      | (r, true) => ⟨r, .error (malformed place)⟩
      | (r, false) => readChunks place rest r

/-- `bsonDocuments`, of a stream by its chunks. -/
def bsonDocuments (chunks : List Bytes) (place : String) : Run :=
  readChunks place chunks {}

/-- The documents yielded, as they were. -/
def Reader.documents (r : Reader) : List Bytes := r.log.filterMap Event.document

end NxgtData.MongoBackup.Format
