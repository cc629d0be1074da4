import Toolpath.Geometry.Vector

/-!
# Placements

A `Motion` of the plane turns about the origin and then translates. A `Placement` is what a block
inherits from the containers around it: the motion that carries its coordinates into machine
coordinates, and the side and radius of the cutter that rides along its outline.
-/

namespace Toolpath

/-- A rigid motion of the plane: a rotation about the origin, then a translation. -/
structure Motion (R : Type) where
  /-- The translation. -/
  origin : Vec2 R
  /-- The rotation in degrees, counter-clockwise. -/
  rotation : R
deriving DecidableEq, Repr

namespace Motion

variable {R : Type} [Analytic R]

/-- The motion that leaves every point where it is. -/
def identity : Motion R := ⟨Vec2.zero, 0⟩

/-- Where a point goes. -/
def point (m : Motion R) (p : Vec2 R) : Vec2 R := p.rotate m.rotation + m.origin

/-- Where a direction goes. -/
def direction (m : Motion R) (v : Vec2 R) : Vec2 R := v.rotate m.rotation

/-- The motion `inner` followed by the motion `outer`. -/
def after (outer inner : Motion R) : Motion R :=
  ⟨outer.direction inner.origin + outer.origin, outer.rotation + inner.rotation⟩

/-- Whether a motion moves points by less than the precision. -/
def isIdentity (m : Motion R) : Bool :=
  decide (m.origin.norm < Scalar.precision) && decide (Scalar.abs m.rotation < Scalar.precision)

end Motion

/-- The placement and cutter compensation a block inherits from the containers around it. -/
structure Placement (R : Type) where
  /-- From the block's coordinates to machine coordinates. -/
  motion : Motion R
  /-- The side of the cutter along the left normal: one on the left, minus one on the right. -/
  side : R
  /-- The radius of the cutter. -/
  tool : R
deriving DecidableEq, Repr

namespace Placement

variable {R : Type} [Analytic R]

/-- No motion and no compensation. -/
def identity : Placement R := ⟨Motion.identity, 0, 0⟩

/-- A point in machine coordinates. -/
def point (p : Placement R) (q : Vec2 R) : Vec2 R := p.motion.point q

/-- The distance of the cutter from the outline along its left normal. -/
def compensation (p : Placement R) : R := p.side * p.tool

/-- The placement seen from outside a container that is placed by `outer`. -/
def within (p : Placement R) (outer : Motion R) : Placement R :=
  { p with motion := outer.after p.motion }

/-- The rotation in degrees. -/
def rotation (p : Placement R) : R := p.motion.rotation

end Placement

end Toolpath
