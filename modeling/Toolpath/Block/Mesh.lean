import Toolpath.Geometry.Vector

/-!
# Triangle meshes and their slices

A mesh is cut as a stack of horizontal slices. The planes divide its height evenly, from just
below the top down to the bottom; the lowest one is moved up by a millionth of the height, so that
it still meets the mesh. Where a plane meets a triangle it leaves a segment: the plane separates
either no edge of a triangle or exactly two.
-/

namespace Toolpath

/-- A triangle in space. -/
structure Triangle (S : Type) where
  /-- The first vertex. -/
  a : Vec3 S
  /-- The second vertex. -/
  b : Vec3 S
  /-- The third vertex. -/
  c : Vec3 S
deriving DecidableEq, Repr

namespace Triangle

/-- A function applied to each coordinate. -/
def map {S T : Type} (f : S → T) (t : Triangle S) : Triangle T := ⟨t.a.map f, t.b.map f, t.c.map f⟩

/-- The nine coordinates, vertex by vertex. -/
def toList {S : Type} (t : Triangle S) : List S := t.a.toList ++ t.b.toList ++ t.c.toList

/-- The edges in order around the triangle. -/
def edges {S : Type} (t : Triangle S) : List (Vec3 S × Vec3 S) :=
  [(t.a, t.b), (t.b, t.c), (t.c, t.a)]

end Triangle

/-- A cross-section of a mesh. -/
structure Slice (R : Type) where
  /-- The height relative to the top of the mesh. -/
  z : R
  /-- The contour segments at this height, in no particular order. -/
  segments : List (Vec2 R × Vec2 R)
deriving DecidableEq, Repr

/-- An imported mesh, cut as stacked slices. -/
structure Mesh (R S : Type) where
  /-- The triangles. -/
  triangles : List (Triangle S)
  /-- The number of slices asked for. -/
  slices : UInt32
  /-- The cross-sections derived from the triangles. -/
  contours : List (Slice R)
deriving DecidableEq, Repr

namespace Mesh

/-- The most slices a mesh is cut into. -/
def maxSlices : Nat := 4096

variable {R S : Type} [Scalar R]

/-- Where the edge from `a` to `b` crosses the plane at height `z`. The edge crosses if just one of
its ends lies below the plane. -/
@[specialize] def edgeCrossing? (z : R) (a b : Vec3 R) : Option (Vec2 R) :=
  let da := a.z - z
  let db := b.z - z
  if decide (da < 0) != decide (db < 0) then
    let t := da / (da - db)
    some ⟨a.x + t * (b.x - a.x), a.y + t * (b.y - a.y)⟩
  else none

/-- Where a triangle meets the plane at height `z`. -/
@[specialize] def crossSection? (z : R) (t : Triangle R) : Option (Vec2 R × Vec2 R) :=
  match t.edges.filterMap fun e => edgeCrossing? z e.1 e.2 with
  | [p, q] => some (p, q)
  | _ => none

/-- The lowest and highest of a list of heights. -/
def extent? : List R → Option (R × R)
  | [] => none
  | z :: zs => some (zs.foldl (fun r z => (Scalar.lesser r.1 z, Scalar.greater r.2 z)) (z, z))

/-- The lowest and the highest height of the mesh. -/
def zRange? [Storage R S] (m : Mesh R S) : Option (R × R) :=
  extent? (m.triangles.flatMap fun t =>
    [Storage.widen t.a.z, Storage.widen t.b.z, Storage.widen t.c.z])

/-- The slice with number `i` of `count`, counted from one at the top. -/
@[specialize] def sliceAt (triangles : List (Triangle R)) (top height : R) (count i : Nat) :
    Slice R :=
  let z := top - height * Scalar.ofNat i / Scalar.ofNat count
  let plane := if i = count then z + height * (1 / 1000000) else z
  ⟨z - top, triangles.filterMap (crossSection? plane)⟩

/-- The slices of the mesh. A mesh without height has none. -/
def slicesOf [Storage R S] (m : Mesh R S) : List (Slice R) :=
  match m.zRange? with
  | none => []
  | some (bottom, top) =>
    let height := top - bottom
    let count := min m.slices.toNat maxSlices
    if height ≤ 0 then []
    else
      let triangles := m.triangles.map (Triangle.map Storage.widen)
      (List.range' 1 count).map (sliceAt triangles top height count)

/-- The mesh with its contours derived anew. -/
def rebuild [Storage R S] (m : Mesh R S) : Mesh R S := { m with contours := m.slicesOf }

/-- A mesh with its contours. -/
def ofTriangles [Storage R S] (triangles : List (Triangle S)) (slices : UInt32) : Mesh R S :=
  rebuild ⟨triangles, slices, []⟩

/-- The mesh with every coordinate multiplied and its contours derived anew. -/
def scale [Storage R S] (m : Mesh R S) (factor : R) : Mesh R S :=
  rebuild { m with
    triangles := m.triangles.map (Triangle.map fun v =>
      Storage.narrow (Storage.widen v * factor)) }

end Mesh

end Toolpath
