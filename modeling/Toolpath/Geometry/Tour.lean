import Toolpath.Geometry.Vector

/-!
# Tours

A tour visits every point of a list once. The greedy tour starts at the first point and goes on to
the nearest point not yet visited; of points equally near the one listed first is taken. Distances
are compared by their squares. A distance that is no finite number is never nearer than anything,
so where there is no other the tour goes on as listed.
-/

namespace Toolpath

/-- The order in which points are visited. -/
inductive TourOrder where
  /-- Always to the nearest point left. -/
  | nearest
  /-- As the points are listed. -/
  | asListed
deriving DecidableEq, Repr, Inhabited

namespace Tour

variable {R : Type}

/-- A point with its place in the list. -/
abbrev Stop (R : Type) := Nat × Vec2 R

/-- Whether a distance is nearer than the nearest one so far. -/
def nearer [Scalar R] (d : R) : Option R → Bool
  | none => Scalar.finite d
  | some best => decide (d < best)

/-- The nearest to `here` of a stop already chosen, at a distance if that is finite, and others. -/
def nearestFrom [Scalar R] (here : Vec2 R) : Stop R → Option R → List (Stop R) → Stop R
  | chosen, _, [] => chosen
  | chosen, best, s :: rest =>
    let d := (s.2 - here).normSq
    if nearer d best then nearestFrom here s (some d) rest else nearestFrom here chosen best rest

/-- The stops visited, where `fuel` bounds how many. -/
def visit [Scalar R] : Nat → Vec2 R → List (Stop R) → List Nat
  | 0, _, _ => []
  | _, _, [] => []
  | fuel + 1, here, s :: rest =>
    let next := nearestFrom here s none (s :: rest)
    next.1 :: visit fuel next.2 ((s :: rest).eraseP fun t => t.1 = next.1)

/-- The points with their places. -/
def stops (points : List (Vec2 R)) : List (Stop R) := (List.range points.length).zip points

/-- The places in the list, in the order in which they are visited. With fewer than three points
there is nothing to choose. -/
def plan [Scalar R] (order : TourOrder) (points : List (Vec2 R)) : List Nat :=
  match order, stops points with
  | .nearest, s :: t :: u :: rest => s.1 :: visit (points.length - 1) s.2 (t :: u :: rest)
  | _, all => all.map Prod.fst

/-- The entries of a list at the places named, in that order. -/
def along {α : Type} (entries : List α) (order : List Nat) : List α :=
  order.filterMap fun i => entries[i]?

/-- The points in the order in which they are visited. -/
def route [Scalar R] (order : TourOrder) (points : List (Vec2 R)) : List (Vec2 R) :=
  along points (plan order points)

/-- The length of the way from the first to the last of some points. -/
def length [Analytic R] (points : List (Vec2 R)) : R :=
  ((points.zip points.tail).map fun e => (e.2 - e.1).norm).foldl (· + ·) 0

end Tour

end Toolpath
