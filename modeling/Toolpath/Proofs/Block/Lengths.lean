import Mathlib.Algebra.Order.Floor.Ring
import Toolpath.Block.Basic
import Toolpath.Proofs.Number.Exact

/-!
# Lengths of a block

Of what a payload holds some are lengths, a mesh keeps the coordinates of its triangles besides, and
the rest has nothing to do with the unit: angles, counts, ratios, texts. Nothing is left out by
this: the three together tell the payload, up to the contours of a mesh, which are derived. So a
scaled payload is the one with the lengths and the coordinates multiplied and with the same rest,
and there is no other.

In exact arithmetic one factor after the other is their product, and a factor of one changes
nothing.

## Main definitions

* `Payload.lengths`, `Payload.coordinates`, `Payload.unmeasured` — the three parts of a payload
* `Block.Rescaled` — a block with its lengths multiplied

## Main results

* `Payload.rebuild_eq_of_parts` — the parts tell the payload
* `Block.rescaled_iff` — scaling a block multiplies its lengths and nothing else
* `Block.scale_scale`, `Block.scale_one` — scaling in exact arithmetic
-/

namespace Toolpath

variable {R S : Type}

/-- The coordinates of a point of the plane in the order of the axes. -/
def Vec2.toList (v : Vec2 R) : List R := [v.x, v.y]

/-- Triangles with the coordinates in a list, nine for each of them. -/
def Triangle.ofCoordinates : List S → List (Triangle S)
  | a₁ :: a₂ :: a₃ :: b₁ :: b₂ :: b₃ :: c₁ :: c₂ :: c₃ :: rest =>
    ⟨⟨a₁, a₂, a₃⟩, ⟨b₁, b₂, b₃⟩, ⟨c₁, c₂, c₃⟩⟩ :: ofCoordinates rest
  | _ => []

theorem Triangle.ofCoordinates_toList (ts : List (Triangle S)) :
    ofCoordinates (ts.flatMap toList) = ts := by
  induction ts with
  | nil => rfl
  | cons t ts ih => exact congrArg (t :: ·) ih

namespace Payload

/-! ### The parts of a payload -/

/-- The lengths of a payload, and the feed of a tool, which is a length in a minute. -/
def lengths : Payload R S → List R
  | .footer d => (d.retract.map Vec2.toList).getD []
  | .tool d => [d.diameter, d.length, d.feed]
  | .sketch d => [d.depth, d.step]
  | .line d => d.start.toList ++ d.finish.toList
  | .arc d => d.start.toList ++ [d.radius]
  | .boltHoles d =>
    d.position.toList ++ d.spacing.toList ++ [d.patternRadius, d.holeDiameter, d.depth, d.step]
  | .drillHoles d => [d.depth, d.increment]
  | .template d => d.position.toList
  | .point p => p.toList
  | .image d => d.size.toList
  | .header _ | .code _ | .mesh _ | .svg _ | .gerber _ | .excellon _ => []

/-- The coordinates of the triangles of a mesh. -/
def coordinates : Payload R S → List S
  | .mesh d => d.triangles.flatMap Triangle.toList
  | _ => []

/-- A payload with its contours derived anew, if it is a mesh. -/
def rebuild [Scalar R] [Storage R S] : Payload R S → Payload R S
  | .mesh d => .mesh d.rebuild
  | p => p

section

variable [Scalar R]

/-- What of a payload is neither a length nor derived from lengths: the payload with zeros for its
lengths and without triangles. -/
def unmeasured : Payload R S → Payload R S
  | .header d => .header d
  | .footer d => .footer ⟨d.retract.map fun _ => Vec2.zero⟩
  | .tool d => .tool { d with diameter := 0, length := 0, feed := 0 }
  | .code t => .code t
  | .sketch d => .sketch { d with depth := 0, step := 0 }
  | .line _ => .line ⟨Vec2.zero, Vec2.zero⟩
  | .arc d => .arc { d with start := Vec2.zero, radius := 0 }
  | .boltHoles d => .boltHoles { d with
      position := Vec2.zero, spacing := Vec2.zero, patternRadius := 0, holeDiameter := 0
      depth := 0, step := 0 }
  | .drillHoles d => .drillHoles { d with depth := 0, increment := 0 }
  | .template d => .template { d with position := Vec2.zero }
  | .point _ => .point Vec2.zero
  | .image d => .image { d with size := ⟨0, 0, 0⟩ }
  | .mesh d => .mesh { d with triangles := [], contours := [] }
  | .svg s => .svg s
  | .gerber s => .gerber s
  | .excellon s => .excellon s

variable [Storage R S]

/-- A payload put together from its parts. -/
def ofParts (coordinates : List S) : List R → Payload R S → Payload R S
  | [x, y], .footer _ => .footer ⟨some ⟨x, y⟩⟩
  | [diameter, length, feed], .tool d => .tool { d with diameter, length, feed }
  | [depth, step], .sketch d => .sketch { d with depth, step }
  | [x, y, x', y'], .line _ => .line ⟨⟨x, y⟩, ⟨x', y'⟩⟩
  | [x, y, radius], .arc d => .arc { d with start := ⟨x, y⟩, radius }
  | [x, y, dx, dy, patternRadius, holeDiameter, depth, step], .boltHoles d =>
    .boltHoles { d with
      position := ⟨x, y⟩, spacing := ⟨dx, dy⟩, patternRadius, holeDiameter, depth, step }
  | [depth, increment], .drillHoles d => .drillHoles { d with depth, increment }
  | [x, y], .template d => .template { d with position := ⟨x, y⟩ }
  | [x, y], .point _ => .point ⟨x, y⟩
  | [x, y, z], .image d => .image { d with size := ⟨x, y, z⟩ }
  | _, .mesh d => .mesh (Mesh.ofTriangles (Triangle.ofCoordinates coordinates) d.slices)
  | _, p => p

theorem ofParts_eq (p : Payload R S) :
    ofParts p.coordinates p.lengths p.unmeasured = p.rebuild := by
  cases p with
  | footer d =>
    obtain ⟨_ | _⟩ := d <;> rfl
  | mesh d =>
    show Payload.mesh (Mesh.ofTriangles (Triangle.ofCoordinates _) _) = _
    rw [coordinates, Triangle.ofCoordinates_toList]
    rfl
  | _ => rfl

/-- **The parts tell the payload**, up to the contours of a mesh. -/
theorem rebuild_eq_of_parts {p q : Payload R S} (hlengths : q.lengths = p.lengths)
    (hcoordinates : q.coordinates = p.coordinates) (hrest : q.unmeasured = p.unmeasured) :
    q.rebuild = p.rebuild := by
  rw [← ofParts_eq, hlengths, hcoordinates, hrest, ofParts_eq]

/-! ### Scaling -/

variable (k : R) (p : Payload R S)

theorem lengths_scale : (p.scale k).lengths = p.lengths.map (· * k) := by
  cases p with
  | footer d => obtain ⟨_ | _⟩ := d <;> rfl
  | _ => rfl

theorem coordinates_scale : (p.scale k).coordinates =
    p.coordinates.map fun v => Storage.narrow (Storage.widen v * k) := by
  cases p with
  | mesh d =>
    show (d.triangles.map _).flatMap Triangle.toList = (d.triangles.flatMap Triangle.toList).map _
    rw [List.flatMap_map, List.map_flatMap]
    rfl
  | _ => rfl

theorem unmeasured_scale : (p.scale k).unmeasured = p.unmeasured := by
  cases p with
  | footer d => obtain ⟨_ | _⟩ := d <;> rfl
  | _ => rfl

/-- The contours of a scaled mesh are derived. -/
theorem rebuild_scale : (p.scale k).rebuild = p.scale k := by
  cases p <;> rfl

end

end Payload

namespace Block

section

variable [Scalar R] [Storage R S]

/-- The second block is the first one with its lengths multiplied, and nothing else changed. -/
structure Rescaled (k : R) (b c : Block R S) : Prop where
  /-- Every length is multiplied, -/
  lengths : c.payload.lengths = b.payload.lengths.map (· * k)
  /-- every coordinate of a mesh with the precision that it is stored with. -/
  coordinates : c.payload.coordinates =
    b.payload.coordinates.map fun v => Storage.narrow (Storage.widen v * k)
  /-- Angles, counts, ratios and texts are the same. -/
  unmeasured : c.payload.unmeasured = b.payload.unmeasured
  /-- The contours are those of the mesh. -/
  derived : c.payload.rebuild = c.payload
  /-- So is the comment, -/
  comment : c.comment = b.comment
  /-- so are the flags, -/
  flags : c.flags = b.flags
  /-- and what the last synthesis left. -/
  output : c.code = b.code ∧ c.status = b.status

/-- **Scaling a block multiplies its lengths and changes nothing else**: one block only is the block
with its lengths multiplied. -/
theorem rescaled_iff {k : R} {b c : Block R S} : b.Rescaled k c ↔ c = b.scale k := by
  constructor
  · intro h
    have hpayload : c.payload = b.payload.scale k := by
      rw [← h.derived, ← b.payload.rebuild_scale k]
      exact Payload.rebuild_eq_of_parts (h.lengths.trans (b.payload.lengths_scale k).symm)
        (h.coordinates.trans (b.payload.coordinates_scale k).symm)
        (h.unmeasured.trans (b.payload.unmeasured_scale k).symm)
    obtain ⟨payload, comment, flags, code, status⟩ := c
    rw [scale, ← hpayload, ← h.comment, ← h.flags, ← h.output.1, ← h.output.2]
  · rintro rfl
    exact ⟨b.payload.lengths_scale k, b.payload.coordinates_scale k, b.payload.unmeasured_scale k,
      b.payload.rebuild_scale k, rfl, rfl, rfl, rfl⟩

end

end Block

/-! ### Exact arithmetic -/

section

open Exact

variable {K : Type} [Field K] [LinearOrder K] [FloorRing K]

theorem Payload.scale_scale (p : Payload K K) (k j : K) :
    (p.scale k).scale j = p.scale (k * j) := by
  have hmul (xs : List K) : (xs.map (· * k)).map (· * j) = xs.map (· * (k * j)) := by
    rw [List.map_map]
    exact List.map_congr_left fun x _ => mul_assoc x k j
  rw [← rebuild_scale j, ← rebuild_scale (k * j)]
  refine rebuild_eq_of_parts ?_ ?_ ?_
  · rw [lengths_scale, lengths_scale, lengths_scale]
    exact hmul p.lengths
  · rw [coordinates_scale, coordinates_scale, coordinates_scale]
    exact hmul p.coordinates
  · rw [unmeasured_scale, unmeasured_scale, unmeasured_scale]

/-- A payload whose contours are derived. -/
theorem Payload.scale_one {p : Payload K K} (h : p.rebuild = p) : p.scale 1 = p := by
  have hmul (xs : List K) : xs.map (· * (1 : K)) = xs := by
    simp only [mul_one, List.map_id']
  rw [← rebuild_scale 1]
  refine (rebuild_eq_of_parts ?_ ?_ (unmeasured_scale 1 p)).trans h
  · exact (lengths_scale 1 p).trans (hmul p.lengths)
  · exact (coordinates_scale 1 p).trans (hmul p.coordinates)

/-- One factor after the other is their product. -/
theorem Block.scale_scale (b : Block K K) (k j : K) : (b.scale k).scale j = b.scale (k * j) :=
  congrArg (fun payload => { b with payload }) (b.payload.scale_scale k j)

theorem Block.scale_one {b : Block K K} (h : b.payload.rebuild = b.payload) : b.scale 1 = b :=
  congrArg (fun payload => { b with payload }) (Payload.scale_one h)

end

end Toolpath
