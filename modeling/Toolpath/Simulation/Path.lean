import Toolpath.Geometry.Vector

/-!
# Paths

A move is simulated at stations along its path: one every `step`, and one at its end. The length of
the path decides how many there are; the station at the end is the target itself, so no rounding
accumulates from move to move.
-/

namespace Toolpath

namespace Path

variable {R : Type} [Analytic R]

/-- The stations of a straight move. A move shorter than the precision has none and leads
nowhere. -/
def straight (step : R) (start target : Vec3 R) : List (Vec3 R) :=
  let delta := target - start
  let length := delta.norm
  if length < Scalar.precision then []
  else
    let direction := delta.divBy length
    (Scalar.marks step length).map (fun travelled => start + direction.scale travelled) ++ [target]

/-- The signed direction of an arc. -/
def turning (clockwise : Bool) : R := if clockwise then -1 else 1

/-- The polar angle at which an arc ends, moved by a turn so that it lies ahead of its start. An
arc that ends where it starts is a full circle. -/
def endAngle (clockwise : Bool) (start finish : R) : R :=
  if clockwise then if start ≤ finish then finish - Analytic.turn else finish
  else if finish ≤ start then finish + Analytic.turn else finish

/-- The stations of a move along an arc around a center, Z changing evenly. An arc with a radius
below the precision is a straight move. -/
def arc (step : R) (clockwise : Bool) (start target : Vec3 R) (center : Vec2 R) : List (Vec3 R) :=
  let radius := Analytic.hypot (start.x - center.x) (start.y - center.y)
  if radius < Scalar.precision then straight step start target
  else
    let a0 := Analytic.atan2 (start.y - center.y) (start.x - center.x)
    let a1 := endAngle clockwise a0 (Analytic.atan2 (target.y - center.y) (target.x - center.x))
    let sweep := Scalar.abs (a1 - a0)
    let station (travelled : R) : Vec3 R :=
      let a := a0 + turning clockwise * travelled
      ⟨center.x + radius * Analytic.cos a, center.y + radius * Analytic.sin a,
        start.z + (target.z - start.z) * travelled / sweep⟩
    (Scalar.marks (step / radius) sweep).map station ++ [target]

/-- Where the tool is after the stations of a move, if it was at `place` before. -/
def finish (place : Vec3 R) (stations : List (Vec3 R)) : Vec3 R := stations.getLast?.getD place

end Path

end Toolpath
