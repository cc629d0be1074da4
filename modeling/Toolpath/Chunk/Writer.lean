import Toolpath.Chunk.Error
import Toolpath.Chunk.Stream

/-!
# Writing chunks

A writer writes to a stream, from where the stream stands. The length of a chunk is not known before
its body is written, so four zero bytes are put in its place and overwritten when the chunk is
closed, by going back to them and then to the end of the body again.
-/

namespace Toolpath

/-- A stream that chunks are written to. -/
structure ChunkWriter where
  /-- The stream. -/
  out : ByteStream
deriving Repr

namespace ChunkWriter

/-- A writer that has written nothing. -/
def empty : ChunkWriter := ⟨.empty⟩

/-- Where the next byte goes. -/
def position (w : ChunkWriter) : Nat := w.out.place

/-- The bytes of the stream. -/
def toBytes (w : ChunkWriter) : Bytes := w.out.toBytes

/-- Bytes written as they are. -/
def raw (w : ChunkWriter) (bytes : Bytes) : ChunkWriter := ⟨w.out.write bytes⟩

/-- Room for a length, and where it is. -/
def placeholder (w : ChunkWriter) : Nat × ChunkWriter := (w.position, w.raw (littleEndian 4 0))

/-- A length written into the room for it. Refused if it needs more than four bytes. -/
def patch (w : ChunkWriter) (place length : Nat) : Except CodecError ChunkWriter :=
  if length < UInt32.size then
    .ok ⟨((w.out.seek place).write (littleEndian 4 length)).seek w.position⟩
  else .error (.chunkTooLarge length)

/-- A chunk opened; the position of its length. -/
def openChunk (w : ChunkWriter) (tag : UInt8) : Nat × ChunkWriter := (w.raw [tag]).placeholder

/-- The chunk closed whose length is at a position. -/
def close (w : ChunkWriter) (place : Nat) : Except CodecError ChunkWriter :=
  w.patch place (w.position - (place + 4))

/-- A chunk whose body is written by a function. -/
def chunk (w : ChunkWriter) (tag : UInt8)
    (body : ChunkWriter → Except CodecError ChunkWriter) : Except CodecError ChunkWriter :=
  let (place, w) := w.openChunk tag
  match body w with
  | .ok w => w.close place
  | .error e => .error e

mutual

/-- A chunk written. -/
def write (w : ChunkWriter) : Chunk → Except CodecError ChunkWriter
  | .leaf tag body => w.chunk tag fun w => .ok (w.raw body)
  | .group tag parts => w.chunk tag fun w => writeAll w parts

/-- Chunks written one after the other. -/
def writeAll (w : ChunkWriter) : List Chunk → Except CodecError ChunkWriter
  | [] => .ok w
  | c :: cs =>
    match write w c with
    | .ok w => writeAll w cs
    | .error e => .error e

end

end ChunkWriter

end Toolpath
