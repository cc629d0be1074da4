import Toolpath.Document.Segment
import Toolpath.Gcode.Command
import Toolpath.Geometry.Tour
import Toolpath.Synthesis.Chain
import Toolpath.Synthesis.Passes

/-!
# Moves

How geometry that is already placed in machine coordinates is cut. Nothing here looks at a
document: the clearance height and the tool come in as `Cutting`, and Z is measured from the top of
the stock downward.

Every pattern starts with a retraction to the clearance height and ends with one, so patterns can
follow each other in any order. A lone segment is cut from wherever the tool stands.
-/

namespace Toolpath

/-- What the moves of a pattern depend on besides its geometry. -/
structure Cutting (R : Type) where
  /-- The height at which the tool clears everything. -/
  clearance : R
  /-- The tool. -/
  tool : Tool R

namespace Cutting

variable {R : Type} [Analytic R]

/-- The feed at which the tool plunges. -/
def plunge (c : Cutting R) : R := Synthesis.plungeFeed c.tool

/-- The move up to the clearance height. -/
def lift (c : Cutting R) : Command R := .rapidZ c.clearance

/-! ### Contours -/

/-- The move along a segment for a tool that stands at its start. -/
def follow (c : Cutting R) : Segment R → List (Command R)
  | .line _ b => [.feed b (some c.tool.feed)]
  | .arc center r start sweep =>
    let s : Segment R := .arc center r start sweep
    [.arc (decide (sweep < 0)) s.finish (center - s.start) (some c.tool.feed)]
  | .point _ => []

/-- The moves that bring the tool to a point at a level. -/
def plungeAt (c : Cutting R) (level : R) (p : Vec2 R) : List (Command R) :=
  [c.lift, .rapid p, .feedZ (-level) c.plunge]

/-- Whether a tool that stands at `place`, if it is in the material at all, is at a point. -/
def standsAt (place : Option (Vec2 R)) (p : Vec2 R) : Bool :=
  match place with
  | some q => q.coincide p
  | none => false

/-- The moves along segments at one level, plunging wherever a segment does not start at `place`,
where the one before it ended. -/
def levelFrom (c : Cutting R) (level : R) : Option (Vec2 R) → List (Segment R) → List (Command R)
  | _, [] => []
  | place, s :: rest =>
    (if standsAt place s.start then [] else c.plungeAt level s.start) ++ c.follow s
      ++ levelFrom c level (some s.finish) rest

/-- The moves along segments at several levels. -/
def contour (c : Cutting R) (levels : List R) (segments : List (Segment R)) : List (Command R) :=
  levels.flatMap fun level => c.levelFrom level none segments ++ [c.lift]

/-! ### Holes -/

/-- A drilling cycle through some points. -/
def drill (c : Cutting R) (depth increment : R) : List (Vec2 R) → List (Command R)
  | [] => []
  | p :: rest =>
    [c.lift, .rapid p, .peck p (-depth) c.clearance increment c.plunge] ++ rest.map .hole
      ++ [.codes [Word.g 80], c.lift]

/-- A round hole with a center and a radius. One that the tool fills is plunged, a wider one is
milled in circles. -/
def bore (c : Cutting R) (depth : R) (levels : List R) (center : Vec2 R) (radius : R) :
    List (Command R) :=
  let reach := radius - c.tool.radius
  if reach ≤ Scalar.precision then
    [c.lift, .rapid center, .feedZ (-depth) c.plunge, c.lift]
  else
    let start : Vec2 R := ⟨center.x + reach, center.y⟩
    [c.lift, .rapid start] ++
      (levels.flatMap fun level =>
        [.feedZ (-level) c.plunge, .arc false start ⟨-reach, 0⟩ (some c.tool.feed)]) ++ [c.lift]

/-! ### Reliefs -/

/-- The pixels of an image row by row, the rows alternately from the left and from the right. -/
def snake (columns rows : Nat) : List (Nat × Nat) :=
  (List.range rows).flatMap fun j =>
    (if j % 2 = 0 then List.range columns else (List.range columns).reverse).map fun i => (i, j)

/-- The moves through places with their heights; the tool plunges at the first. -/
def surface (c : Cutting R) : List (Vec2 R × R) → List (Command R)
  | [] => []
  | (p, z) :: rest =>
    .rapid p :: .feedZ z c.plunge :: rest.map fun q => .feedTo q.1 q.2 c.tool.feed

/-! ### Slices -/

/-- The moves along a polyline at a height. -/
def polyline (c : Cutting R) (z : R) : List (Vec2 R) → List (Command R)
  | [] => []
  | p :: rest =>
    [c.lift, .rapid p, .feedZ z c.plunge] ++ rest.map fun q => .feed q (some c.tool.feed)

/-- The moves along the contours of a slice. -/
def slice (c : Cutting R) (placed : Vec2 R → Vec2 R) (s : Slice R) : List (Command R) :=
  ((Chain.all s.segments).flatMap fun chain => c.polyline s.z (chain.points.map placed)) ++ [c.lift]

end Cutting

end Toolpath
