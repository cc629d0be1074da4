import Toolpath.Chunk.Basic

/-!
# Streams

A stream is a run of bytes and a place, the one that the next byte goes to. What is written goes
over the bytes from the place on, and behind the last one it is appended; the place moves along. The
place can be moved anywhere. If it is moved beyond the last byte, the gap is filled with zeros when
something is written there.
-/

namespace Toolpath

/-- A run of bytes and a place in it. -/
structure ByteStream where
  /-- The bytes. -/
  bytes : Array UInt8
  /-- Where the next byte goes. -/
  place : Nat
deriving Repr

namespace ByteStream

/-- A stream without bytes. -/
def empty : ByteStream := ⟨#[], 0⟩

/-- The bytes of a stream. -/
def toBytes (s : ByteStream) : Bytes := s.bytes.toList

/-- Zeros put behind bytes. -/
def pushZeros : Nat → Array UInt8 → Array UInt8
  | 0, bytes => bytes
  | n + 1, bytes => pushZeros n (bytes.push 0)

/-- The stream without a gap in front of its place. -/
def filled : ByteStream → ByteStream
  | ⟨bytes, place⟩ => ⟨pushZeros (place - bytes.size) bytes, place⟩

/-- A byte written at a place that is not beyond the end. -/
def put : ByteStream → UInt8 → ByteStream
  | ⟨bytes, place⟩, b =>
    ⟨if place < bytes.size then bytes.setIfInBounds place b else bytes.push b, place + 1⟩

/-- Bytes written at the place. -/
def write (s : ByteStream) (bs : Bytes) : ByteStream := bs.foldl put s.filled

/-- The stream with its place moved. -/
def seek (s : ByteStream) (place : Nat) : ByteStream := { s with place := place }

end ByteStream

end Toolpath
