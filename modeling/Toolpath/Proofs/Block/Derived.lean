import Mathlib.Algebra.Order.Field.Basic
import Mathlib.Tactic.Linarith
import Toolpath.Block.Payload
import Toolpath.Proofs.Number.Exact

/-!
# Derived geometry and scaling

Some of what a payload stands for is not stored with it, but derived: the circles of a bolt hole
pattern, the center and the end of an arc, the contours of a mesh. What is derived from a scaled
payload, in exact arithmetic, is what was derived before, scaled. So no length has a part in the
derivation that scaling leaves out.

Of the sine and the cosine nothing is needed, since angles are not scaled. The contours ask for a
positive factor: a plane separates the same vertices as before only if the order of heights stays.

## Main definitions

* `Arc.scale`, `Slice.scale` — lengths multiplied

## Main results

* `BoltHoles.centers_scale`, `BoltHoles.circles_scale` — the holes of a pattern
* `Arc.center_scale`, `Arc.finish_scale` — the center and the end of an arc
* `Mesh.contours_scale` — the contours of a mesh
-/

namespace Toolpath

/-- Lengths multiplied. -/
def Arc.scale {R : Type} [Scalar R] (a : Arc R) (k : R) : Arc R :=
  { a with start := a.start.scale k, radius := a.radius * k }

/-- Lengths multiplied. -/
def Slice.scale {R : Type} [Scalar R] (s : Slice R) (k : R) : Slice R :=
  ⟨s.z * k, s.segments.map fun p => (p.1.scale k, p.2.scale k)⟩

open Exact

variable {K : Type} [Field K] [LinearOrder K] [FloorRing K]

/-! ### Circles -/

section

variable [Angular K]

theorem Vec2.onCircle_scale (v : Vec2 K) (r angle k : K) :
    (v.scale k).onCircle (r * k) angle = (v.onCircle r angle).scale k := by
  simp only [scale, onCircle, Vec2.mk.injEq]
  constructor <;> ring

/-- **The center of a scaled arc.** -/
theorem Arc.center_scale (a : Arc K) (k : K) : (a.scale k).center = a.center.scale k := by
  have hneg : -(a.radius * k) = -a.radius * k := (neg_mul ..).symm
  show (a.start.scale k).onCircle (-(a.radius * k)) _ = _
  rw [hneg, Vec2.onCircle_scale]
  rfl

/-- **The end of a scaled arc.** -/
theorem Arc.finish_scale (a : Arc K) (k : K) : (a.scale k).finish = a.finish.scale k := by
  rw [finish, center_scale]
  exact Vec2.onCircle_scale a.center a.radius _ k

theorem BoltHoles.radialCenter_scale (b : BoltHoles K) (k : K) (i : Nat) :
    (b.scale k).radialCenter i = (b.radialCenter i).scale k :=
  Vec2.onCircle_scale b.position b.patternRadius _ k

omit [Angular K] in
theorem BoltHoles.matrixCenter_scale (b : BoltHoles K) (k : K) (i j : Nat) :
    (b.scale k).matrixCenter i j = (b.matrixCenter i j).scale k := by
  simp only [scale, matrixCenter, Vec2.scale, Vec2.mk.injEq]
  constructor <;> ring

/-- **The centers of the holes of a scaled pattern.** -/
theorem BoltHoles.centers_scale (b : BoltHoles K) (k : K) :
    (b.scale k).centers = b.centers.map (·.scale k) := by
  have hpattern : (b.scale k).pattern = b.pattern := rfl
  rw [centers, centers, hpattern]
  cases b.pattern with
  | radial =>
    rw [List.map_map]
    exact List.map_congr_left fun i _ => b.radialCenter_scale k i
  | matrix =>
    rw [List.map_map]
    exact List.map_congr_left fun i _ => b.matrixCenter_scale k _ _

omit [Angular K] in
theorem Arc.circle_scale [Angular K] (c : Vec2 K) (r k : K) :
    Arc.circle (c.scale k) (r * k) = (Arc.circle c r).scale k := by
  simp only [circle, scale, Vec2.scale, add_mul]

/-- The circles of a scaled pattern. -/
theorem BoltHoles.circles_scale (b : BoltHoles K) (k : K) :
    (b.scale k).circles = b.circles.map (·.scale k) := by
  have hradius : (b.scale k).holeDiameter / 2 = b.holeDiameter / 2 * k := mul_div_right_comm ..
  rw [circles, circles, centers_scale, hradius, List.map_map, List.map_map]
  exact List.map_congr_left fun c _ => Arc.circle_scale c _ k

end

/-! ### Contours -/

namespace Mesh

variable [IsStrictOrderedRing K] {k : K}

/-- Where an edge is crossed: the plane separates the ends as before, in the same proportion. -/
theorem edgeCrossing?_scale (hk : 0 < k) (z : K) (a b : Vec3 K) :
    edgeCrossing? (z * k) (a.scale k) (b.scale k) = (edgeCrossing? z a b).map (·.scale k) := by
  have hbelow (c : Vec3 K) : ((c.scale k).z - z * k < 0) = (c.z - z < 0) := by
    show (c.z * k - z * k < 0) = _
    rw [sub_neg, sub_neg, mul_lt_mul_iff_left₀ hk]
  have hratio : ((a.scale k).z - z * k) / ((a.scale k).z - z * k - ((b.scale k).z - z * k)) =
      (a.z - z) / (a.z - z - (b.z - z)) := by
    show (a.z * k - z * k) / (a.z * k - z * k - (b.z * k - z * k)) = _
    rw [← sub_mul, ← sub_mul, ← sub_mul, mul_div_mul_right _ _ hk.ne']
  simp only [edgeCrossing?, zero_eq, hbelow, hratio]
  split
  · refine congrArg some (congrArg₂ Vec2.mk ?_ ?_)
    · show a.x * k + _ * (b.x * k - a.x * k) = (a.x + _ * (b.x - a.x)) * k
      ring
    · show a.y * k + _ * (b.y * k - a.y * k) = (a.y + _ * (b.y - a.y)) * k
      ring
  · rfl

/-- Where a triangle is cut. -/
theorem crossSection?_scale (hk : 0 < k) (z : K) (t : Triangle K) :
    crossSection? (z * k) (t.map (· * k)) =
      (crossSection? z t).map fun p => (p.1.scale k, p.2.scale k) := by
  have hedges : (t.map (· * k)).edges = t.edges.map fun e => (e.1.scale k, e.2.scale k) := rfl
  have hpoints : (t.map (· * k)).edges.filterMap (fun e => edgeCrossing? (z * k) e.1 e.2) =
      (t.edges.filterMap fun e => edgeCrossing? z e.1 e.2).map (·.scale k) := by
    rw [hedges, List.filterMap_map, List.map_filterMap]
    exact List.filterMap_congr fun e _ => edgeCrossing?_scale hk z e.1 e.2
  rw [crossSection?, crossSection?, hpoints]
  cases t.edges.filterMap fun e => edgeCrossing? z e.1 e.2 with
  | nil => rfl
  | cons p ps =>
    cases ps with
    | nil => rfl
    | cons q qs => cases qs <;> rfl

/-- The heights of a mesh keep their order. -/
theorem extent?_map (hk : 0 < k) (zs : List K) :
    extent? (zs.map (· * k)) = (extent? zs).map fun r => (r.1 * k, r.2 * k) := by
  cases zs with
  | nil => rfl
  | cons z zs =>
    let widened (r : K × K) (z : K) : K × K := (Scalar.lesser r.1 z, Scalar.greater r.2 z)
    have hfold (r : K × K) : (zs.map (· * k)).foldl widened (r.1 * k, r.2 * k) =
        ((zs.foldl widened r).1 * k, (zs.foldl widened r).2 * k) := by
      induction zs generalizing r with
      | nil => rfl
      | cons c zs ih =>
        have hstep : widened (r.1 * k, r.2 * k) (c * k) =
            ((widened r c).1 * k, (widened r c).2 * k) := by
          simp only [widened, lesser_eq, greater_eq, min_mul_of_nonneg _ _ hk.le,
            max_mul_of_nonneg _ _ hk.le]
        rw [List.map_cons, List.foldl_cons, List.foldl_cons, hstep, ih]
    exact congrArg some (hfold (z, z))

theorem sliceAt_scale (hk : 0 < k) (ts : List (Triangle K)) (top height : K) (count i : Nat) :
    sliceAt (ts.map (Triangle.map (· * k))) (top * k) (height * k) count i =
      (sliceAt ts top height count i).scale k := by
  have hz : top * k - height * k * Scalar.ofNat i / Scalar.ofNat count =
      (top - height * Scalar.ofNat i / Scalar.ofNat count) * k := by ring
  have hplane (z nudge : K) : (if i = count then z * k + height * k * nudge else z * k) =
      (if i = count then z + height * nudge else z) * k := by split <;> ring
  simp only [sliceAt, Slice.scale, hz, hplane, ← sub_mul, List.filterMap_map, List.map_filterMap]
  exact congrArg _ (List.filterMap_congr fun t _ => crossSection?_scale hk _ t)

theorem zRange?_scale (hk : 0 < k) (m : Mesh K K) :
    (m.scale k).zRange? = m.zRange?.map fun r => (r.1 * k, r.2 * k) := by
  rw [zRange?, zRange?, ← extent?_map hk, List.map_flatMap]
  exact congrArg extent? (List.flatMap_map ..)

theorem slicesOf_scale (hk : 0 < k) (m : Mesh K K) :
    (m.scale k).slicesOf = m.slicesOf.map (·.scale k) := by
  rw [slicesOf, slicesOf, zRange?_scale hk]
  cases m.zRange? with
  | none => rfl
  | some r =>
    obtain ⟨bottom, top⟩ := r
    have hflat : (top * k - bottom * k ≤ 0) = (top - bottom ≤ 0) := by
      rw [sub_nonpos, sub_nonpos, mul_le_mul_iff_left₀ hk]
    have htriangles : (m.scale k).triangles.map (Triangle.map Storage.widen) =
        (m.triangles.map (Triangle.map Storage.widen)).map (Triangle.map (· * k)) := by
      show (m.triangles.map _).map _ = _
      rw [List.map_map, List.map_map]
      rfl
    have hcount : (m.scale k).slices = m.slices := rfl
    simp only [Option.map_some, zero_eq, hflat, htriangles, hcount]
    split
    · rfl
    · generalize m.triangles.map (Triangle.map (Storage.widen : K → K)) = ts
      rw [← sub_mul, List.map_map]
      exact List.map_congr_left fun i _ => sliceAt_scale hk ts top (top - bottom) _ i

/-- **The contours of a scaled mesh.** -/
theorem contours_scale (hk : 0 < k) (m : Mesh K K) :
    (m.scale k).contours = m.slicesOf.map (·.scale k) :=
  slicesOf_scale hk m

end Mesh

end Toolpath
