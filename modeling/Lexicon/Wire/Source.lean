/-
Lexicon.Wire.Source — where stored bytes are read from.

A `Stream` hands out its bytes in chunks of any sizes and ends when they do. A
`Region` lies in memory as a whole; its fields are known by their offsets. The
two report a shortage in their own ways and are otherwise read alike, through
the class `ByteSource`.
-/
import Lexicon.Fault

namespace Lexicon

/-- Bytes that arrive in chunks. -/
structure Stream where
  chunks : List (List UInt8)
  deriving DecidableEq, Repr

/-- Bytes that lie in memory, read up to an offset. -/
structure Region where
  bytes : Array UInt8
  offset : Nat := 0
  deriving DecidableEq, Repr

/-- Something that stored bytes can be read from. -/
class ByteSource (σ : Type) where
  /-- The next bytes, as many as asked for. -/
  take : Nat → σ → Except Fault (List UInt8 × σ)
  /-- The next bytes, as records that need the given alignment. -/
  takeRecords : (alignment count : Nat) → σ → Except Fault (List UInt8 × σ)

namespace Stream

/-- The stream of some bytes that arrive in chunks of the given size, or all at once.

A stream whose chunks are empty is at its end. -/
def ofBytes (bytes : List UInt8) : (chunk : Option Nat) → Stream
  | none => ⟨[bytes]⟩
  | some 0 => ⟨[]⟩
  | some chunk => ⟨cut chunk bytes.length bytes []⟩
where
  /-- The chunks of a list of bytes, behind those already cut off, which are in reverse. -/
  cut (chunk : Nat) : (fuel : Nat) → List UInt8 → (done : List (List UInt8)) → List (List UInt8)
    | 0, bytes, done => (bytes :: done).reverse
    | _ + 1, [], done => done.reverse
    | fuel + 1, bytes, done => cut chunk fuel (bytes.drop chunk) (bytes.take chunk :: done)

/-- The next `count` bytes of some chunks, behind those already taken, which are in reverse. -/
def takeChunks : (count : Nat) → List (List UInt8) → (taken : List (List UInt8)) →
    Option (List UInt8 × List (List UInt8))
  | 0, chunks, taken => some (taken.reverse.flatten, chunks)
  | _ + 1, [], _ => none
  | count + 1, chunk :: chunks, taken =>
    let head := chunk.take (count + 1)
    let missing := count + 1 - head.length
    if missing = 0 then some ((head :: taken).reverse.flatten, chunk.drop (count + 1) :: chunks)
    else takeChunks missing chunks (head :: taken)

/-- The next bytes of a stream, or the complaint that it ended. -/
def take (count : Nat) (s : Stream) : Except Fault (List UInt8 × Stream) :=
  match takeChunks count s.chunks [] with
  | some (bytes, chunks) => .ok (bytes, ⟨chunks⟩)
  | none => .error .streamEnd

instance : ByteSource Stream where
  take := take
  takeRecords _ := take

end Stream

namespace Region

/-- The region of some bytes. -/
def ofBytes (bytes : List UInt8) : Region :=
  { bytes := bytes.toArray }

/-- The next bytes of a region, or the complaint that it is too short. -/
def take (count : Nat) (r : Region) : Except Fault (List UInt8 × Region) :=
  let available := r.bytes.size - r.offset
  if count ≤ available then
    .ok ((r.bytes.extract r.offset (r.offset + count)).toList,
      { r with offset := r.offset + count })
  else
    .error (.malformed (.regionEnd count r.offset available))

/-- The next bytes of a region as records, or the complaint that they are not aligned. -/
def takeRecords (alignment count : Nat) (r : Region) : Except Fault (List UInt8 × Region) := do
  let taken ← r.take count
  if 0 < count ∧ r.offset % alignment ≠ 0 then
    .error (.malformed (.misalignedBlob r.offset))
  else
    .ok taken

instance : ByteSource Region where
  take := take
  takeRecords := takeRecords

end Region

end Lexicon
