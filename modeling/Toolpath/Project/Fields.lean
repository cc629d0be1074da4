import Toolpath.Block.Basic
import Toolpath.Chunk.Reader

/-!
# The fields of payloads

A payload is stored as a list of chunks, one for each field, with tags counted from zero within
the kind. Reading starts from the standard payload of the kind and lets each field replace what it
names; fields with other tags are passed over, so a field that is missing keeps its standard value.
-/

namespace Toolpath

/-- The payloads that are stored: doubles, with bulk data in single precision. -/
abbrev StoredPayload := Payload Double Single

namespace Leaf

/-- The bytes of a double. -/
def doubleBytes (x : Double) : Bytes := littleEndian 8 x.bits.toNat

/-- The bytes of a number of single precision. -/
def singleBytes (x : Single) : Bytes := littleEndian 4 x.bits.toNat

/-- The bytes of a number of four bytes. -/
def wordBytes (n : UInt32) : Bytes := littleEndian 4 n.toNat

/-- A field that holds a byte. -/
def byte (tag : UInt8) (b : UInt8) : Chunk := .leaf tag [b]

/-- A field that holds a truth value. -/
def bool (tag : UInt8) (b : Bool) : Chunk := .leaf tag [if b then 1 else 0]

/-- A field that holds numbers of four bytes. -/
def words (tag : UInt8) (ns : List UInt32) : Chunk := .leaf tag (ns.flatMap wordBytes)

/-- A field that holds doubles. -/
def doubles (tag : UInt8) (xs : List Double) : Chunk := .leaf tag (xs.flatMap doubleBytes)

/-- A field that holds a double. -/
def double (tag : UInt8) (x : Double) : Chunk := doubles tag [x]

/-- A field that holds a number of four bytes. -/
def word (tag : UInt8) (n : UInt32) : Chunk := words tag [n]

/-- A field that holds numbers of single precision. -/
def singles (tag : UInt8) (xs : List Single) : Chunk := .leaf tag (xs.flatMap singleBytes)

/-- A field that holds a point of the plane. -/
def place (tag : UInt8) (p : Vec2 Double) : Chunk := doubles tag [p.x, p.y]

/-- A field that holds a text. -/
def text (tag : UInt8) (s : String) : Chunk := .leaf tag (Utf8.encode s)

end Leaf

namespace Payload

open Leaf

/-- The fields of a payload. -/
def fields : StoredPayload → List Chunk
  | .header d => [byte 0 d.coordinateSystem]
  | .footer d =>
    match d.retract with
    | some p => [place 0 p]
    | none => []
  | .tool d =>
    [text 0 d.label, byte 1 d.number, double 2 d.diameter, double 3 d.length, double 4 d.feed,
      double 5 d.plungeRatio, word 6 d.spindleSpeed, bool 7 (d.spindle == .counterClockwise),
      bool 8 d.coolant, bool 9 d.prompt]
  | .code t => [text 0 t]
  | .sketch d => [double 0 d.depth, double 1 d.step, byte 2 d.side.toByte]
  | .line d => [place 0 d.start, place 1 d.finish]
  | .arc d => [place 0 d.start, double 1 d.radius, double 2 d.startAngle, double 3 d.sweep]
  | .boltHoles d =>
    [place 0 d.position, bool 1 (d.pattern == .matrix), word 2 d.count, double 3 d.patternRadius,
      double 4 d.offsetAngle, words 5 [d.columns, d.rows], place 6 d.spacing,
      double 7 d.holeDiameter, double 8 d.depth, double 9 d.step]
  | .drillHoles d => [double 0 d.depth, double 1 d.increment, bool 2 d.optimalPath]
  | .template d => [place 0 d.position, double 1 d.rotation]
  | .point p => [place 0 p]
  | .image d => [words 0 [d.columns, d.rows], doubles 1 d.size.toList, singles 2 d.pixels.toList]
  | .mesh d => [word 0 d.slices, singles 1 (d.triangles.flatMap Triangle.toList)]
  | .svg s => [text 0 s]
  | .gerber s => [text 0 s]
  | .excellon s => [text 0 s]

/-- Triangles from nine coordinates each. -/
def trianglesOf : List Single → List (Triangle Single)
  | ax :: ay :: az :: bx :: bY :: bz :: cx :: cy :: cz :: rest =>
    ⟨⟨ax, ay, az⟩, ⟨bx, bY, bz⟩, ⟨cx, cy, cz⟩⟩ :: trianglesOf rest
  | _ => []

/-- The triangles a field holds. If coordinates are left over, the field is too short. -/
def readTriangles : Read (List (Triangle Single)) := do
  let flat ← Read.singles
  let n := flat.size
  if n % 9 = 0 then return trianglesOf flat.toList
  else throw (.truncated (Read.nextMultiple 9 n * 4) (n * 4))

/-- A payload with the field that a chunk holds replaced. -/
def readField (tag : UInt8) : StoredPayload → Read StoredPayload
  | .header d =>
    match tag with
    | 0 => return .header { d with coordinateSystem := ← Read.u8 }
    | _ => return .header d
  | .footer d =>
    match tag with
    | 0 => return .footer { d with retract := some (← Read.point) }
    | _ => return .footer d
  | .tool d =>
    match tag with
    | 0 => return .tool { d with label := ← Read.text }
    | 1 => return .tool { d with number := ← Read.u8 }
    | 2 => return .tool { d with diameter := ← Read.f64 }
    | 3 => return .tool { d with length := ← Read.f64 }
    | 4 => return .tool { d with feed := ← Read.f64 }
    | 5 => return .tool { d with plungeRatio := ← Read.f64 }
    | 6 => return .tool { d with spindleSpeed := ← Read.u32 }
    | 7 => return .tool { d with spindle := if ← Read.bool then .counterClockwise else .clockwise }
    | 8 => return .tool { d with coolant := ← Read.bool }
    | 9 => return .tool { d with prompt := ← Read.bool }
    | _ => return .tool d
  | .code t =>
    match tag with
    | 0 => return .code (← Read.text)
    | _ => return .code t
  | .sketch d =>
    match tag with
    | 0 => return .sketch { d with depth := ← Read.f64 }
    | 1 => return .sketch { d with step := ← Read.f64 }
    | 2 => return .sketch { d with side := CutSide.ofByte (← Read.u8) }
    | _ => return .sketch d
  | .line d =>
    match tag with
    | 0 => return .line { d with start := ← Read.point }
    | 1 => return .line { d with finish := ← Read.point }
    | _ => return .line d
  | .arc d =>
    match tag with
    | 0 => return .arc { d with start := ← Read.point }
    | 1 => return .arc { d with radius := ← Read.f64 }
    | 2 => return .arc { d with startAngle := ← Read.f64 }
    | 3 => return .arc { d with sweep := ← Read.f64 }
    | _ => return .arc d
  | .boltHoles d =>
    match tag with
    | 0 => return .boltHoles { d with position := ← Read.point }
    | 1 => return .boltHoles { d with pattern := if ← Read.bool then .matrix else .radial }
    | 2 => return .boltHoles { d with count := ← Read.u32 }
    | 3 => return .boltHoles { d with patternRadius := ← Read.f64 }
    | 4 => return .boltHoles { d with offsetAngle := ← Read.f64 }
    | 5 => do
      let columns ← Read.u32
      let rows ← Read.u32
      return .boltHoles { d with columns, rows }
    | 6 => return .boltHoles { d with spacing := ← Read.point }
    | 7 => return .boltHoles { d with holeDiameter := ← Read.f64 }
    | 8 => return .boltHoles { d with depth := ← Read.f64 }
    | 9 => return .boltHoles { d with step := ← Read.f64 }
    | _ => return .boltHoles d
  | .drillHoles d =>
    match tag with
    | 0 => return .drillHoles { d with depth := ← Read.f64 }
    | 1 => return .drillHoles { d with increment := ← Read.f64 }
    | 2 => return .drillHoles { d with optimalPath := ← Read.bool }
    | _ => return .drillHoles d
  | .template d =>
    match tag with
    | 0 => return .template { d with position := ← Read.point }
    | 1 => return .template { d with rotation := ← Read.f64 }
    | _ => return .template d
  | .point p =>
    match tag with
    | 0 => return .point (← Read.point)
    | _ => return .point p
  | .image d =>
    match tag with
    | 0 => do
      let columns ← Read.u32
      let rows ← Read.u32
      return .image { d with columns, rows }
    | 1 => return .image { d with size := ← Read.vec3 }
    | 2 => return .image { d with pixels := ← Read.singles }
    | _ => return .image d
  | .mesh d =>
    match tag with
    | 0 => return .mesh { d with slices := ← Read.u32 }
    | 1 => return .mesh { d with triangles := ← readTriangles }
    | _ => return .mesh d
  | .svg s =>
    match tag with
    | 0 => return .svg (← Read.text)
    | _ => return .svg s
  | .gerber s =>
    match tag with
    | 0 => return .gerber (← Read.text)
    | _ => return .gerber s
  | .excellon s =>
    match tag with
    | 0 => return .excellon (← Read.text)
    | _ => return .excellon s

end Payload

end Toolpath
