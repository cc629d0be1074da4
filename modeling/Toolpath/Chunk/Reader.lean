import Toolpath.Chunk.Error
import Toolpath.Geometry.Vector

/-!
# Reading chunks

A reader stands somewhere in a run of bytes. A step takes bytes off the front and either yields a
value or fails; a step that fails half way keeps what it has taken until then. The body of a chunk
is read by a reader of its own, so nothing that happens there reaches beyond the body.

`RawChunk.split` takes a run of bytes apart as far as it follows the grammar of chunks.
-/

namespace Toolpath

/-- A step of reading: a value or an error, and the bytes that are left. -/
abbrev Read (α : Type) := ExceptT CodecError (StateM Bytes) α

/-- A chunk as read: its tag and its body. -/
abbrev RawChunk := UInt8 × Bytes

/-- Whether there are at least `n` bytes. -/
def hasAtLeast (n : Nat) (bytes : Bytes) : Bool :=
  match n with
  | 0 => true
  | k + 1 => !(bytes.drop k).isEmpty

namespace Read

/-- A step as a function from bytes to its outcome and the bytes left. -/
def on {α : Type} (step : Read α) (bytes : Bytes) : Except CodecError α × Bytes :=
  (ExceptT.run step).run bytes

/-- The outcome of a step on the body of a chunk. -/
def within {α : Type} (body : Bytes) (step : Read α) : Except CodecError α := (step.on body).1

/-- The next `n` bytes. If there are not so many, none is taken. -/
def take (n : Nat) : Read Bytes := do
  let bytes ← get
  if hasAtLeast n bytes then
    set (bytes.drop n)
    return bytes.take n
  else throw (.truncated n bytes.length)

/-- A byte. -/
def u8 : Read UInt8 := do return ((← take 1).headD 0)

/-- A truth value; every byte but zero is true. -/
def bool : Read Bool := do return (← u8) != 0

/-- A number of four bytes. -/
def u32 : Read UInt32 := do return UInt32.ofNat (ofLittleEndian (← take 4))

/-- A double. -/
def f64 : Read Double := do return ⟨UInt64.ofNat (ofLittleEndian (← take 8))⟩

/-- A number of single precision. -/
def f32 : Read Single := do return ⟨UInt32.ofNat (ofLittleEndian (← take 4))⟩

/-- A point of the plane. -/
def point : Read (Vec2 Double) := do
  let x ← f64
  let y ← f64
  return ⟨x, y⟩

/-- A point of space. -/
def vec3 : Read (Vec3 Double) := do
  let x ← f64
  let y ← f64
  let z ← f64
  return ⟨x, y, z⟩

/-- All bytes that are left, as text. -/
def text : Read String := do
  let bytes ← get
  set ([] : Bytes)
  match Utf8.decode bytes with
  | .ok s => return s
  | .error fault => throw (.invalidUtf8 fault)

/-- The least multiple of `k` that is not below `n`. -/
def nextMultiple (k n : Nat) : Nat := (n + k - 1) / k * k

/-- Further numbers of single precision, four bytes each. -/
def singlesOf (found : Array Single) : Bytes → Array Single
  | a :: b :: c :: d :: rest =>
    singlesOf (found.push ⟨UInt32.ofNat (ofLittleEndian [a, b, c, d])⟩) rest
  | _ => found

/-- All bytes that are left, as numbers of single precision. If a part of one is left over, nothing
is taken. -/
def singles : Read (Array Single) := do
  let bytes ← get
  let n := bytes.length
  if n % 4 = 0 then
    set ([] : Bytes)
    return singlesOf #[] bytes
  else throw (.truncated (nextMultiple 4 n) n)

/-- The next chunk, or nothing at the end. -/
def nextChunk : Read (Option RawChunk) := do
  let bytes ← get
  if bytes.isEmpty then return none
  else
    let tag ← u8
    let length ← u32
    let body ← take length.toNat
    return some (tag, body)

end Read

/-- A run of bytes taken apart: the chunks it starts with, and what is wrong after the last of them
if it does not end there. -/
structure SplitChunks where
  /-- The chunks. -/
  chunks : List RawChunk
  /-- What is wrong after them. -/
  broken : Option CodecError

namespace RawChunk

/-- `split` for at most `fuel` chunks. -/
def splitTo : Nat → Bytes → SplitChunks
  | 0, _ => ⟨[], none⟩
  | fuel + 1, bytes =>
    match Read.nextChunk.on bytes with
    | (.error e, _) => ⟨[], some e⟩
    | (.ok none, _) => ⟨[], none⟩
    | (.ok (some c), rest) =>
      let s := splitTo fuel rest
      ⟨c :: s.chunks, s.broken⟩

/-- A run of bytes taken apart into chunks. A chunk has at least five bytes, so there are no more
chunks than bytes. -/
def split (bytes : Bytes) : SplitChunks := splitTo (bytes.length + 1) bytes

end RawChunk

end Toolpath
