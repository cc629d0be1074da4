/-!
# Kinds of blocks

A machining project is made of blocks of sixteen kinds. Each kind has a persisted tag and a name,
and some kinds are containers: their blocks own a list of children.
-/

namespace Toolpath

/-- The kinds of blocks. -/
inductive BlockKind where
  /-- What opens a program. -/
  | header
  /-- What closes a program. -/
  | footer
  /-- A group with a position and rotation of its own. -/
  | template
  /-- A contour of lines and arcs, cut in depth passes. -/
  | sketch
  /-- A circular arc. -/
  | arc
  /-- A straight line. -/
  | line
  /-- A pattern of bolt holes. -/
  | boltHoles
  /-- A tool change. -/
  | tool
  /-- Program text taken over as it stands. -/
  | code
  /-- A relief carved from an image. -/
  | image
  /-- A pattern of drilled holes. -/
  | drillHoles
  /-- A single location. -/
  | point
  /-- An imported mesh of triangles. -/
  | mesh
  /-- What an SVG import produced. -/
  | svg
  /-- What a Gerber import produced. -/
  | gerber
  /-- What an Excellon import produced. -/
  | excellon
deriving DecidableEq, Repr, Inhabited

namespace BlockKind

/-- Every kind, in the order of the tags. -/
def all : List BlockKind :=
  [header, footer, template, sketch, arc, line, boltHoles, tool, code, image, drillHoles, point,
    mesh, svg, gerber, excellon]

/-- The persisted tag. Tag 9 is not in use. -/
def tag : BlockKind → UInt8
  | header => 0x00
  | footer => 0x01
  | template => 0x02
  | sketch => 0x03
  | arc => 0x04
  | line => 0x05
  | boltHoles => 0x06
  | tool => 0x07
  | code => 0x08
  | image => 0x0A
  | drillHoles => 0x0B
  | point => 0x0C
  | mesh => 0x0D
  | svg => 0x0E
  | gerber => 0x0F
  | excellon => 0x10

/-- The kind with a persisted tag. -/
def ofTag? (t : UInt8) : Option BlockKind := all.find? fun k => k.tag == t

/-- The name shown to people. -/
def name : BlockKind → String
  | header => "Begin"
  | footer => "End"
  | template => "Template"
  | sketch => "Sketch"
  | arc => "Arc"
  | line => "Line"
  | boltHoles => "Bolt Holes"
  | tool => "Tool"
  | code => "Code"
  | image => "Image"
  | drillHoles => "Drill Holes"
  | point => "Point"
  | mesh => "STL"
  | svg => "SVG"
  | gerber => "Gerber"
  | excellon => "Excellon"

/-- Whether blocks of the kind own a list of children. -/
def isContainer : BlockKind → Bool
  | template | sketch | boltHoles | drillHoles | svg | gerber | excellon => true
  | _ => false

@[simp] theorem ofTag?_tag (k : BlockKind) : ofTag? k.tag = some k := by cases k <;> rfl

theorem tag_of_ofTag? {t : UInt8} {k : BlockKind} (h : ofTag? t = some k) : k.tag = t := by
  simpa using List.find?_some h

end BlockKind

end Toolpath
