import Toolpath.Block.Kind
import Toolpath.Block.Mesh

/-!
# Payloads

What a block of each kind holds. Lengths are in the units of the project, angles in degrees.
Every kind has a default payload, and lengths can be rescaled; angles, counts and ratios are not
touched by that.
-/

namespace Toolpath

/-- The settings of a program header. -/
structure Header where
  /-- The work coordinate system, counted from zero. -/
  coordinateSystem : UInt8
deriving DecidableEq, Repr

/-- The settings of a program footer. -/
structure Footer (R : Type) where
  /-- Where to park after retracting, if anywhere. -/
  retract : Option (Vec2 R)
deriving DecidableEq, Repr

/-- The direction in which the spindle turns. -/
inductive SpindleDirection where
  /-- Clockwise. -/
  | clockwise
  /-- Counter-clockwise. -/
  | counterClockwise
deriving DecidableEq, Repr, Inhabited

/-- A tool and the parameters it cuts with. -/
structure Tool (R : Type) where
  /-- The label. -/
  label : String
  /-- The slot in the tool table. -/
  number : UInt8
  /-- The diameter it cuts. -/
  diameter : R
  /-- The overall length. -/
  length : R
  /-- The feed in units per minute. -/
  feed : R
  /-- The plunge feed as a fraction of the feed. -/
  plungeRatio : R
  /-- The speed of the spindle in turns per minute. -/
  spindleSpeed : UInt32
  /-- The direction of the spindle. -/
  spindle : SpindleDirection
  /-- Whether coolant flows. -/
  coolant : Bool
  /-- Whether the operator is asked before the change. -/
  prompt : Bool
deriving DecidableEq, Repr

/-- The side of the travel direction on which the cutter rides. -/
inductive CutSide where
  /-- On the contour. -/
  | center
  /-- To the left of travel. -/
  | left
  /-- To the right of travel. -/
  | right
deriving DecidableEq, Repr, Inhabited

/-- A contour cut in depth passes; its segments are the children of the block. -/
structure Sketch (R : Type) where
  /-- The final depth below the surface. -/
  depth : R
  /-- The depth taken per pass. -/
  step : R
  /-- The side of the cutter. -/
  side : CutSide
deriving DecidableEq, Repr

/-- A straight line. -/
structure Line (R : Type) where
  /-- The start. -/
  start : Vec2 R
  /-- The finish. -/
  finish : Vec2 R
deriving DecidableEq, Repr

/-- A circular arc, given by its start. -/
structure Arc (R : Type) where
  /-- The start. -/
  start : Vec2 R
  /-- The radius. -/
  radius : R
  /-- The polar angle of the start, seen from the center. -/
  startAngle : R
  /-- The swept angle; counter-clockwise is positive. -/
  sweep : R
deriving DecidableEq, Repr

/-- How bolt holes are arranged. -/
inductive BoltPattern where
  /-- Evenly on a circle. -/
  | radial
  /-- On a rectangular grid. -/
  | matrix
deriving DecidableEq, Repr, Inhabited

/-- A pattern of bolt holes; its circles are kept as children of the block. -/
structure BoltHoles (R : Type) where
  /-- The center of the circle, or the first hole of the grid. -/
  position : Vec2 R
  /-- The arrangement. -/
  pattern : BoltPattern
  /-- The number of holes on the circle. -/
  count : UInt32
  /-- The radius of the circle. -/
  patternRadius : R
  /-- The angle of the first hole on the circle. -/
  offsetAngle : R
  /-- The number of grid columns. -/
  columns : UInt32
  /-- The number of grid rows. -/
  rows : UInt32
  /-- The spacing of the grid. -/
  spacing : Vec2 R
  /-- The diameter of every hole. -/
  holeDiameter : R
  /-- The final depth. -/
  depth : R
  /-- The depth taken per pass. -/
  step : R
deriving DecidableEq, Repr

/-- A pattern of drilled holes; its locations are the children of the block. -/
structure DrillHoles (R : Type) where
  /-- The final depth below the surface. -/
  depth : R
  /-- The depth drilled between retractions. -/
  increment : R
  /-- Whether holes are visited nearest first instead of as listed. -/
  optimalPath : Bool
deriving DecidableEq, Repr

/-- A group that is placed as a whole. -/
structure Template (R : Type) where
  /-- The translation of its children. -/
  position : Vec2 R
  /-- Their rotation, before the translation. -/
  rotation : R
deriving DecidableEq, Repr

/-- A relief carved from an image. -/
structure Relief (R S : Type) where
  /-- The number of pixel columns. -/
  columns : UInt32
  /-- The number of pixel rows. -/
  rows : UInt32
  /-- The width, the height and the greatest depth. -/
  size : Vec3 R
  /-- The intensities, row by row from the top: one is the surface, zero the deepest cut. -/
  pixels : Array S
deriving DecidableEq, Repr

/-- What a block holds. -/
inductive Payload (R S : Type) where
  /-- See `Header`. -/
  | header (data : Header)
  /-- See `Footer`. -/
  | footer (data : Footer R)
  /-- See `Tool`. -/
  | tool (data : Tool R)
  /-- Program text. -/
  | code (text : String)
  /-- See `Sketch`. -/
  | sketch (data : Sketch R)
  /-- See `Line`. -/
  | line (data : Line R)
  /-- See `Arc`. -/
  | arc (data : Arc R)
  /-- See `BoltHoles`. -/
  | boltHoles (data : BoltHoles R)
  /-- See `DrillHoles`. -/
  | drillHoles (data : DrillHoles R)
  /-- See `Template`. -/
  | template (data : Template R)
  /-- A location. -/
  | point (location : Vec2 R)
  /-- See `Relief`. -/
  | image (data : Relief R S)
  /-- See `Mesh`. -/
  | mesh (data : Mesh R S)
  /-- The name of the imported file. -/
  | svg (source : String)
  /-- The name of the imported file. -/
  | gerber (source : String)
  /-- The name of the imported file. -/
  | excellon (source : String)
deriving DecidableEq, Repr

namespace CutSide

/-- The side as a factor along the left normal. -/
def sign {R : Type} [Scalar R] : CutSide → R
  | center => 0
  | left => 1
  | right => -1

/-- The persisted byte. -/
def toByte : CutSide → UInt8
  | center => 0
  | left => 1
  | right => 2

/-- The side with a persisted byte; what is unknown reads as the center. -/
def ofByte (b : UInt8) : CutSide := if b = 1 then left else if b = 2 then right else center

@[simp] theorem ofByte_toByte (s : CutSide) : ofByte s.toByte = s := by cases s <;> rfl

end CutSide

namespace Tool

variable {R : Type} [Scalar R]

/-- A new tool. -/
def standard : Tool R where
  label := "End Mill"
  number := 1
  diameter := 1 / 8
  length := 1
  feed := 10
  plungeRatio := 1 / 2
  spindleSpeed := 3000
  spindle := .clockwise
  coolant := false
  prompt := false

/-- The radius. -/
def radius (t : Tool R) : R := t.diameter / 2

/-- The feed asked for when plunging. -/
def plungeFeed (t : Tool R) : R := t.feed * t.plungeRatio

/-- Lengths and feeds multiplied. -/
def scale (t : Tool R) (k : R) : Tool R :=
  { t with diameter := t.diameter * k, length := t.length * k, feed := t.feed * k }

end Tool

namespace Arc

variable {R : Type} [Analytic R]

/-- A full circle, counter-clockwise from angle zero. -/
def circle (center : Vec2 R) (radius : R) : Arc R := ⟨⟨center.x + radius, center.y⟩, radius, 0, 360⟩

/-- The center. -/
def center (a : Arc R) : Vec2 R := a.start.onCircle (-a.radius) (Analytic.radians a.startAngle)

/-- The end point. -/
def finish (a : Arc R) : Vec2 R :=
  a.center.onCircle a.radius (Analytic.radians (a.startAngle + a.sweep))

/-- Whether the sweep is a full turn. -/
def isFullCircle (a : Arc R) : Bool :=
  decide (Scalar.abs (Analytic.radians (Scalar.abs a.sweep) - Analytic.turn) < 1 / 1000000000)

end Arc

namespace BoltHoles

variable {R : Type}

/-- A new pattern. -/
def standard [Scalar R] : BoltHoles R where
  position := ⟨1, 1⟩
  pattern := .radial
  count := 4
  patternRadius := 1 / 2
  offsetAngle := 0
  columns := 2
  rows := 2
  spacing := ⟨1 / 2, 1 / 2⟩
  holeDiameter := 1 / 4
  depth := 1 / 10
  step := 1 / 20

/-- The center of the hole with number `i` on the circle. -/
def radialCenter [Analytic R] (b : BoltHoles R) (i : Nat) : Vec2 R :=
  let angle := b.offsetAngle + 360 * Scalar.ofNat i / Scalar.ofNat (max b.count.toNat 1)
  b.position.onCircle b.patternRadius (Analytic.radians angle)

/-- The center of the hole in column `i` and row `j` of the grid. -/
def matrixCenter [Scalar R] (b : BoltHoles R) (i j : Nat) : Vec2 R :=
  ⟨b.position.x + Scalar.ofNat i * b.spacing.x, b.position.y + Scalar.ofNat j * b.spacing.y⟩

/-- The centers of all holes, around the circle or row by row. -/
def centers [Analytic R] (b : BoltHoles R) : List (Vec2 R) :=
  match b.pattern with
  | .radial => (List.range b.count.toNat).map b.radialCenter
  | .matrix =>
    (List.range (b.rows.toNat * b.columns.toNat)).map fun k =>
      b.matrixCenter (k % b.columns.toNat) (k / b.columns.toNat)

/-- The circles of all holes. -/
def circles [Analytic R] (b : BoltHoles R) : List (Arc R) :=
  b.centers.map fun c => Arc.circle c (b.holeDiameter / 2)

/-- Lengths multiplied. -/
def scale [Scalar R] (b : BoltHoles R) (k : R) : BoltHoles R :=
  { b with
    position := b.position.scale k
    patternRadius := b.patternRadius * k
    holeDiameter := b.holeDiameter * k
    spacing := b.spacing.scale k
    depth := b.depth * k
    step := b.step * k }

end BoltHoles

namespace Relief

variable {R S : Type} [Scalar R] [Storage R S]

/-- The number of pixels the resolution asks for. -/
def pixelCount (r : Relief R S) : Nat := r.columns.toNat * r.rows.toNat

/-- A relief from a buffer cut or filled up to its resolution; what is filled up is surface. -/
def ofPixels (columns rows : UInt32) (size : Vec3 R) (pixels : Array S) : Relief R S :=
  let wanted := columns.toNat * rows.toNat
  ⟨columns, rows, size,
    pixels.extract 0 wanted ++ Array.replicate (wanted - pixels.size) (Storage.narrow (1 : R))⟩

/-- The intensity in column `i` and row `j`; outside the image and beyond the buffer there is
surface. -/
def pixel (r : Relief R S) (i j : Nat) : S :=
  if i < r.columns.toNat ∧ j < r.rows.toNat then
    (r.pixels[j * r.columns.toNat + i]?).getD (Storage.narrow (1 : R))
  else Storage.narrow (1 : R)

end Relief

namespace Payload

variable {R S : Type}

/-- The kind of a payload. -/
def kind : Payload R S → BlockKind
  | .header _ => .header
  | .footer _ => .footer
  | .tool _ => .tool
  | .code _ => .code
  | .sketch _ => .sketch
  | .line _ => .line
  | .arc _ => .arc
  | .boltHoles _ => .boltHoles
  | .drillHoles _ => .drillHoles
  | .template _ => .template
  | .point _ => .point
  | .image _ => .image
  | .mesh _ => .mesh
  | .svg _ => .svg
  | .gerber _ => .gerber
  | .excellon _ => .excellon

variable [Scalar R]

/-- The payload of a new block. -/
def standard : BlockKind → Payload R S
  | .header => .header ⟨0⟩
  | .footer => .footer ⟨none⟩
  | .template => .template ⟨Vec2.zero, 0⟩
  | .sketch => .sketch ⟨1 / 10, 1 / 20, .center⟩
  | .arc => .arc ⟨⟨1, 0⟩, 1, 0, 90⟩
  | .line => .line ⟨Vec2.zero, ⟨1, 0⟩⟩
  | .boltHoles => .boltHoles BoltHoles.standard
  | .tool => .tool Tool.standard
  | .code => .code ""
  | .image => .image ⟨0, 0, ⟨1, 1, 1 / 20⟩, #[]⟩
  | .drillHoles => .drillHoles ⟨1 / 10, 1 / 20, true⟩
  | .point => .point Vec2.zero
  | .mesh => .mesh ⟨[], 4, []⟩
  | .svg => .svg ""
  | .gerber => .gerber ""
  | .excellon => .excellon ""

@[simp] theorem kind_standard (k : BlockKind) : (standard k : Payload R S).kind = k := by
  cases k <;> rfl

/-- Every length multiplied; angles, counts and ratios stay. -/
def scale [Storage R S] (k : R) : Payload R S → Payload R S
  | .header d => .header d
  | .footer d => .footer ⟨d.retract.map (·.scale k)⟩
  | .tool d => .tool (d.scale k)
  | .code t => .code t
  | .sketch d => .sketch { d with depth := d.depth * k, step := d.step * k }
  | .line d => .line ⟨d.start.scale k, d.finish.scale k⟩
  | .arc d => .arc { d with start := d.start.scale k, radius := d.radius * k }
  | .boltHoles d => .boltHoles (d.scale k)
  | .drillHoles d => .drillHoles { d with depth := d.depth * k, increment := d.increment * k }
  | .template d => .template { d with position := d.position.scale k }
  | .point p => .point (p.scale k)
  | .image d => .image { d with size := d.size.scale k }
  | .mesh d => .mesh (d.scale k)
  | .svg s => .svg s
  | .gerber s => .gerber s
  | .excellon s => .excellon s

@[simp] theorem kind_scale [Storage R S] (k : R) (p : Payload R S) : (p.scale k).kind = p.kind := by
  cases p <;> rfl

end Payload

end Toolpath
