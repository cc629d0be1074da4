import Toolpath.Chunk.Basic
import Toolpath.Text.Utf8

/-!
# What can be wrong with a project file
-/

namespace Toolpath

/-- Quantities in a project file that are limited. -/
inductive LimitedField where
  /-- The resolution of the voxel field. -/
  | voxelResolution
  /-- The number of slices of a mesh. -/
  | sliceCount
  /-- The number of pixels of a relief. -/
  | pixelCount
deriving DecidableEq, Repr, Inhabited

/-- The name of a limited quantity. -/
def LimitedField.name : LimitedField → String
  | voxelResolution => "voxel resolution"
  | sliceCount => "STL slice count"
  | pixelCount => "image pixel count"

/-- Why bytes could not be read or written as a project. -/
inductive CodecError where
  /-- The first four bytes are not those of a project file. -/
  | badMagic (found : Bytes)
  /-- The format is newer than this library. -/
  | unsupportedVersion (version : UInt32)
  /-- Fewer bytes are there than are needed. -/
  | truncated (needed available : Nat)
  /-- Containers are nested deeper than allowed. -/
  | recursionLimit (limit : Nat)
  /-- A text is not UTF-8. -/
  | invalidUtf8 (fault : Utf8Fault)
  /-- A quantity is beyond its limit. -/
  | outOfRange (field : LimitedField) (value : Nat)
  /-- A body is too long for its length to be written. -/
  | chunkTooLarge (size : Nat)
deriving DecidableEq, Repr, Inhabited

namespace CodecError

/-- A number in hexadecimal, with capital letters and at least eight digits. -/
def hexadecimal (n : Nat) : String :=
  let ds := (Nat.toDigits 16 n).map Char.toUpper
  String.ofList (List.replicate (8 - ds.length) '0' ++ ds)

/-- Bytes as a list of numbers. -/
def listing (bytes : Bytes) : String :=
  "[" ++ String.intercalate ", " (bytes.map fun b => toString b.toNat) ++ "]"

/-- The bytes that a project file starts with. -/
def magic : Bytes := [0x47, 0x43, 0x41, 0x4D]

/-- The text of an error. -/
def message : CodecError → String
  | badMagic found => "invalid magic: expected " ++ listing magic ++ ", found " ++ listing found
  | unsupportedVersion v => "unsupported format version 0x" ++ hexadecimal v.toNat
  | truncated needed available =>
    "truncated data: expected " ++ toString needed ++ " bytes, only " ++ toString available
      ++ " available"
  | recursionLimit limit => "recursion limit exceeded: max depth is " ++ toString limit
  | invalidUtf8 fault => "invalid UTF-8 in text chunk: " ++ fault.message
  | outOfRange field value => field.name ++ " " ++ toString value ++ " is out of range"
  | chunkTooLarge size => "chunk of " ++ toString size ++ " bytes exceeds the format limit"

end CodecError

end Toolpath
