import Toolpath.Gcode.Line
import Toolpath.Synthesis.Moves

/-!
# The commands of a block

What each kind of block contributes to a program. A block that cuts needs a tool before it,
something to cut and, where it has one, a depth; a `SynthesisError` says which of these is missing.
The tool is asked for first.

Groups contribute a remark only; what is below them is contributed by their children.
-/

namespace Toolpath

/-- Why a block contributes nothing. -/
inductive SynthesisError where
  /-- No tool precedes the block. -/
  | noTool
  /-- There is nothing to cut. -/
  | noGeometry (kind : BlockKind)
  /-- The depth is zero or negative. -/
  | noDepth (kind : BlockKind)
deriving DecidableEq, Repr, Inhabited

/-- The text of an error. -/
def SynthesisError.message : SynthesisError → String
  | noTool => "no tool selected"
  | noGeometry k => k.name ++ " has no geometry"
  | noDepth k => k.name ++ " depth must be positive"

namespace Document

variable {R S : Type} [Analytic R]

/-! ### Setting up -/

/-- The code that selects the unit of a program. -/
def unitCode : Units → Word
  | .inch => Word.g 20
  | .millimeter => Word.g 21

/-- The commands that open a program. -/
def headerCommands (d : Document R S) (comment : String) (h : Header) : List (Command R) :=
  [.programStart d.number.toNat, .remark d.name, .remark comment,
    .codes ([17, 40, 49, 80, 90].map Word.g), .codes [unitCode d.material.units],
    .codes [Word.g (54 + min h.coordinateSystem.toNat 5)],
    .marker Marker.originName d.material.origin.toList, .rapidZ d.material.clearance]

/-- The commands that close a program. -/
def footerCommands (d : Document R S) (comment : String) (f : Footer R) : List (Command R) :=
  [.remark comment, .rapidZ d.material.clearance] ++ (f.retract.map Command.rapid).toList
    ++ [.codes [Word.m 5], .codes [Word.m 9], .programEnd]

/-- The remark on a tool that has none of its own. -/
def toolRemark [Numeral R] (decimals : Nat) (t : Tool R) : String :=
  "T" ++ toString t.number.toNat ++ ": " ++ t.label ++ " D" ++
    Numeral.coordinate decimals t.diameter

/-- The commands that ask the operator for a tool. -/
def promptCommands (t : Tool R) : List (Command R) :=
  [.remark ("Load tool " ++ toString t.number.toNat), .codes [Word.m 0]]

/-- The commands of a tool change. -/
def toolCommands [Numeral R] (d : Document R S) (decimals : Nat) (comment : String) (t : Tool R) :
    List (Command R) :=
  [.remark (if comment.isEmpty then toolRemark decimals t else comment),
      .marker Marker.toolDiameterName [t.diameter], .rapidZ d.material.clearance, .codes [Word.m 5]]
    ++ (if t.prompt || d.machine.prompts then promptCommands t else [])
    ++ [.toolChange t.number.toNat,
      .codes [Word.ofNat 'S' 1 t.spindleSpeed.toNat,
        Word.m (match t.spindle with | .clockwise => 3 | .counterClockwise => 4)],
      .codes [Word.m (if t.coolant then 8 else 9)], .feedRate t.feed]

/-! ### Cutting -/

/-- What a block cuts with. -/
def cutting (d : Document R S) (id : NodeId) : Except SynthesisError (Cutting R) :=
  match d.findTool? id with
  | some t => .ok ⟨d.material.clearance, t⟩
  | none => .error .noTool

/-- The commands of a lone line or arc. -/
def segmentCommands (d : Document R S) (id : NodeId) (b : Block R S) :
    Except SynthesisError (List (Command R)) := do
  let c ← d.cutting id
  match (d.segment? id).filter fun s => decide (0 < s.length) with
  | some s => return .remark b.comment :: c.follow s
  | none => throw (.noGeometry b.kind)

/-- The commands of a sketch. -/
def sketchCommands (d : Document R S) (id : NodeId) (b : Block R S) (data : Sketch R) :
    Except SynthesisError (List (Command R)) := do
  let c ← d.cutting id
  let segments := (d.childSegments id).filter fun s => !s.isPoint
  let levels := Synthesis.passes data.step data.depth
  if segments.isEmpty then throw (.noGeometry b.kind)
  else if levels.isEmpty then throw (.noDepth b.kind)
  else return .remark b.comment :: c.contour levels segments

/-- The commands of a pattern of drilled holes. -/
def drillCommands (d : Document R S) (id : NodeId) (b : Block R S) (data : DrillHoles R) :
    Except SynthesisError (List (Command R)) := do
  let c ← d.cutting id
  let points := (d.childSegments id).filterMap Segment.location?
  let increment := if Scalar.precision < data.increment then data.increment else data.depth
  if points.isEmpty then throw (.noGeometry b.kind)
  else if data.depth ≤ Scalar.precision then throw (.noDepth b.kind)
  else
    let order := if data.optimalPath then TourOrder.nearest else TourOrder.asListed
    return .remark b.comment :: c.drill data.depth increment (Tour.route order points)

/-- The commands of a pattern of bolt holes. -/
def boltCommands (d : Document R S) (id : NodeId) (b : Block R S) (data : BoltHoles R) :
    Except SynthesisError (List (Command R)) := do
  let c ← d.cutting id
  let circles := (d.childSegments id).filterMap Segment.circle?
  let levels := Synthesis.passes data.step data.depth
  if circles.isEmpty then throw (.noGeometry b.kind)
  else if levels.isEmpty then throw (.noDepth b.kind)
  else
    let order := Tour.plan .nearest (circles.map Prod.fst)
    return .remark b.comment ::
      (Tour.along circles order).flatMap fun h => c.bore data.depth levels h.1 h.2

/-- The place of a pixel of a relief, in the coordinates of its block, and its height. -/
def pixelPlace [Storage R S] (r : Relief R S) (pixel : Nat × Nat) : Vec2 R × R :=
  let dx := r.size.x / Scalar.ofNat r.columns.toNat
  let dy := r.size.y / Scalar.ofNat r.rows.toNat
  let shade : R := Scalar.clamp 0 1 (Storage.widen (r.pixel pixel.1 pixel.2))
  (⟨(Scalar.ofNat pixel.1 + 1 / 2) * dx, r.size.y - (Scalar.ofNat pixel.2 + 1 / 2) * dy⟩,
    -(1 - shade) * r.size.z)

/-- The commands of a relief. -/
def reliefCommands [Storage R S] (d : Document R S) (id : NodeId) (b : Block R S)
    (r : Relief R S) : Except SynthesisError (List (Command R)) := do
  let c ← d.cutting id
  if r.columns = 0 ∨ r.rows = 0 ∨ r.size.x ≤ 0 ∨ r.size.y ≤ 0 then throw (.noGeometry b.kind)
  else
    let place := d.placement id
    let places := (Cutting.snake r.columns.toNat r.rows.toNat).map fun pixel =>
      let (p, z) := pixelPlace r pixel
      (place.point p, z)
    return [.remark b.comment, c.lift] ++ c.surface places ++ [c.lift]

/-- The commands of a mesh. -/
def meshCommands (d : Document R S) (id : NodeId) (b : Block R S) (m : Mesh R S) :
    Except SynthesisError (List (Command R)) := do
  let c ← d.cutting id
  if m.contours.all fun s => s.segments.isEmpty then throw (.noGeometry b.kind)
  else
    let place := d.placement id
    return .remark b.comment :: m.contours.flatMap (c.slice place.point)

/-- The commands of a block itself, without those of its children. -/
def commands [Storage R S] [Numeral R] (d : Document R S) (decimals : Nat) (id : NodeId)
    (b : Block R S) : Except SynthesisError (List (Command R)) :=
  match b.payload with
  | .header h => .ok (d.headerCommands b.comment h)
  | .footer f => .ok (d.footerCommands b.comment f)
  | .tool t => .ok (d.toolCommands decimals b.comment t)
  | .code t => .ok [.verbatim t]
  | .line _ | .arc _ => d.segmentCommands id b
  | .sketch s => d.sketchCommands id b s
  | .drillHoles h => d.drillCommands id b h
  | .boltHoles h => d.boltCommands id b h
  | .image r => d.reliefCommands id b r
  | .mesh m => d.meshCommands id b m
  | .point _ => .ok []
  | .template _ | .svg _ | .gerber _ | .excellon _ => .ok [.remark b.comment]

end Document

end Toolpath
