/-!
# Text as bytes

Text is stored as UTF-8. `decode` accepts exactly the encodings of texts; for anything else it
says where the valid part ends and how long the offending sequence is.
-/

namespace Toolpath

/-- Where a run of bytes stops being UTF-8. -/
structure Utf8Fault where
  /-- The number of bytes before the fault. -/
  index : Nat
  /-- The length of the offending sequence; absent if the bytes end in the middle of one. -/
  length : Option Nat
deriving DecidableEq, Repr, Inhabited

namespace Utf8Fault

/-- The text of the fault. -/
def message (f : Utf8Fault) : String :=
  match f.length with
  | some n => "invalid utf-8 sequence of " ++ toString n ++ " bytes from index " ++ toString f.index
  | none => "incomplete utf-8 byte sequence from index " ++ toString f.index

end Utf8Fault

namespace Utf8

/-- The bytes of a text. -/
def encode (s : String) : List UInt8 := s.toUTF8.data.toList

/-- Whether a byte continues a sequence. -/
def isContinuation (b : UInt8) : Bool := 0x80 ≤ b && b < 0xC0

/-- How many bytes follow a byte that starts a sequence, and between which bounds the first of
them lies. -/
def expected? (first : UInt8) : Option (Nat × UInt8 × UInt8) :=
  if first < 0x80 then some (0, 0, 0)
  else if first < 0xC2 then none
  else if first < 0xE0 then some (1, 0x80, 0xBF)
  else if first = 0xE0 then some (2, 0xA0, 0xBF)
  else if first = 0xED then some (2, 0x80, 0x9F)
  else if first < 0xF0 then some (2, 0x80, 0xBF)
  else if first = 0xF0 then some (3, 0x90, 0xBF)
  else if first < 0xF4 then some (3, 0x80, 0xBF)
  else if first = 0xF4 then some (3, 0x80, 0x8F)
  else none

/-- The length of the fault in a sequence of which `done` bytes are read and `more` continuation
bytes must follow, if it has one. -/
def tailFault? (done : Nat) : Nat → List UInt8 → Option (Option Nat)
  | 0, _ => none
  | _ + 1, [] => some none
  | more + 1, b :: rest =>
    if isContinuation b then tailFault? (done + 1) more rest else some (some done)

/-- The length of the fault in the sequence at the start of some bytes, or the number of bytes that
follow the first. -/
def sequence (first : UInt8) (rest : List UInt8) : Except (Option Nat) Nat :=
  match expected? first with
  | none => .error (some 1)
  | some (0, _, _) => .ok 0
  | some (more + 1, lo, hi) =>
    match rest with
    | [] => .error none
    | b :: rest =>
      if b < lo || hi < b then .error (some 1)
      else
        match tailFault? 2 more rest with
        | some f => .error f
        | none => .ok (more + 1)

/-- The first fault from byte `index` on. The first argument counts bytes that belong to a sequence
already read. -/
def faultFrom (index : Nat) : Nat → List UInt8 → Option Utf8Fault
  | _, [] => none
  | skip + 1, _ :: rest => faultFrom (index + 1) skip rest
  | 0, first :: rest =>
    match sequence first rest with
    | .error length => some ⟨index, length⟩
    | .ok more => faultFrom (index + 1) more rest

/-- The text that some bytes encode, or the first fault in them. -/
def decode (bytes : List UInt8) : Except Utf8Fault String :=
  match String.fromUTF8? ⟨bytes.toArray⟩ with
  | some s => .ok s
  | none => .error ((faultFrom 0 0 bytes).getD default)

end Utf8

end Toolpath
