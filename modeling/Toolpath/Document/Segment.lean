import Toolpath.Document.Scope

/-!
# Segments

Lines, arcs and points resolve to segments, either with the coordinates they store or placed:
carried along by the placement of the block and then shifted for the cutter. A line moves along its
left normal; an arc grows or shrinks.
-/

namespace Toolpath

/-- A piece of geometry with angles in radians. -/
inductive Segment (R : Type) where
  /-- A straight line. -/
  | line (start finish : Vec2 R)
  /-- An arc; a positive sweep is counter-clockwise. -/
  | arc (center : Vec2 R) (radius start sweep : R)
  /-- A single location. -/
  | point (location : Vec2 R)
deriving DecidableEq, Repr

namespace Segment

variable {R S : Type}

/-- Whether a segment is a single location. -/
def isPoint : Segment R → Bool
  | point _ => true
  | _ => false

/-- The location, if the segment is a single one. -/
def location? : Segment R → Option (Vec2 R)
  | point p => some p
  | _ => none

/-- The center and the radius, if the segment is an arc. -/
def circle? : Segment R → Option (Vec2 R × R)
  | arc c r _ _ => some (c, r)
  | _ => none

variable [Analytic R]

/-- The segment of a block with the coordinates it stores. Blocks of other kinds have none. -/
def ofBlock? (b : Block R S) : Option (Segment R) :=
  match b.payload with
  | .line l => some (line l.start l.finish)
  | .arc a =>
    some (arc a.center a.radius (Analytic.radians a.startAngle) (Analytic.radians a.sweep))
  | .point p => some (point p)
  | _ => none

/-- The segment in machine coordinates. -/
def placed (p : Placement R) : Segment R → Segment R
  | line a b => line (p.point a) (p.point b)
  | arc c r start sweep => arc (p.point c) r (start + Analytic.radians p.rotation) sweep
  | point q => point (p.point q)

/-- The segment shifted by a distance to the left of travel, as far as it has a direction. The
radius of an arc does not become negative. -/
def shifted (distance : R) : Segment R → Segment R
  | s =>
    if Scalar.abs distance < Scalar.precision then s
    else
      match s with
      | line a b =>
        let d := b - a
        let len := d.norm
        if len < Scalar.precision then s
        else
          let n := ((⟨-d.y, d.x⟩ : Vec2 R).divBy len).scale distance
          line (a + n) (b + n)
      | arc c r start sweep =>
        arc c (Scalar.greater (r - distance * Scalar.sign sweep) 0) start sweep
      | point _ => s

/-- The segment as the cutter follows it. -/
def resolved (p : Placement R) (s : Segment R) : Segment R := (s.placed p).shifted p.compensation

/-- The start of a segment. -/
def start : Segment R → Vec2 R
  | line a _ => a
  | arc c r start _ => c.onCircle r start
  | point p => p

/-- The end of a segment. -/
def finish : Segment R → Vec2 R
  | line _ b => b
  | arc c r start sweep => c.onCircle r (start + sweep)
  | point p => p

/-- The length of the path. -/
def length : Segment R → R
  | line a b => (b - a).norm
  | arc _ r _ sweep => r * Scalar.abs sweep
  | point _ => 0

/-- Whether an angle lies in the span that an arc sweeps from `start` on. -/
def sweeps (start sweep angle : R) : Bool :=
  if Analytic.turn - Scalar.precision ≤ Scalar.abs sweep then true
  else
    let along := if 0 ≤ sweep then angle - start else start - angle
    decide (Analytic.remainder along Analytic.turn ≤ Scalar.abs sweep + Scalar.precision)

/-- The least coordinates of two points. -/
def leastCorner (a b : Vec2 R) : Vec2 R := ⟨Scalar.lesser a.x b.x, Scalar.lesser a.y b.y⟩

/-- The greatest coordinates of two points. -/
def greatestCorner (a b : Vec2 R) : Vec2 R := ⟨Scalar.greater a.x b.x, Scalar.greater a.y b.y⟩

/-- The points of an arc that lie farthest along an axis. -/
def extremes : Segment R → List (Vec2 R)
  | arc c r start sweep =>
    ((List.range 4).map fun k => Scalar.ofNat k * Analytic.turn / 4).filter (sweeps start sweep)
      |>.map fun angle => c.onCircle r angle
  | _ => []

/-- The corners of the least upright box around a segment. -/
def bounds (s : Segment R) : Vec2 R × Vec2 R :=
  s.extremes.foldl (fun b p => (leastCorner b.1 p, greatestCorner b.2 p))
    (leastCorner s.start s.finish, greatestCorner s.start s.finish)

/-- Where a line crosses the height `y`. The span of heights is half open, so that a vertex which
two lines of a chain share is counted once. -/
def lineCrossing (a b : Vec2 R) (y : R) : List R :=
  let lo := if a.y ≤ b.y then a else b
  let hi := if a.y ≤ b.y then b else a
  if Scalar.abs (hi.y - lo.y) < Scalar.precision ∨ y < lo.y ∨ hi.y ≤ y then []
  else
    let t := (y - lo.y) / (hi.y - lo.y)
    [lo.x + t * (hi.x - lo.x)]

/-- Where an arc crosses the height `y`. -/
def arcCrossings (c : Vec2 R) (r start sweep y : R) : List R :=
  let dy := y - c.y
  if r < Scalar.abs dy then []
  else
    let dx := Analytic.sqrt (r * r - dy * dy)
    [c.x - dx, c.x + dx].foldl (fun xs x =>
      let angle := Vec2.angle ⟨x - c.x, dy⟩
      let seen := xs.any fun v => decide (Scalar.abs (v - x) < Scalar.precision)
      if sweeps start sweep angle && !seen then xs ++ [x] else xs) []

/-- The abscissas at which a segment crosses the height `y`. -/
def crossings (s : Segment R) (y : R) : List R :=
  match s with
  | line a b => lineCrossing a b y
  | arc c r start sweep => arcCrossings c r start sweep y
  | point _ => []

end Segment

namespace Document

variable {R S : Type} [Analytic R]

/-- A block that is not suppressed. -/
def active? (d : Document R S) (id : NodeId) : Option (Block R S) :=
  (d.get? id).filter fun b => !b.flags.suppressed

/-- The segment of a block with the coordinates it stores. A suppressed block has none. -/
def rawSegment? (d : Document R S) (id : NodeId) : Option (Segment R) :=
  (d.active? id).bind Segment.ofBlock?

/-- The segment of a block as the cutter follows it. A suppressed block has none. -/
def segment? (d : Document R S) (id : NodeId) : Option (Segment R) :=
  (d.rawSegment? id).map (Segment.resolved (d.placement id))

/-- The segments of the children of a container. -/
def childSegments (d : Document R S) (id : NodeId) : List (Segment R) :=
  match d.children? id with
  | some l => (d.tree.members l).filterMap d.segment?
  | none => []

end Document

end Toolpath
