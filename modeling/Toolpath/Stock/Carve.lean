import Toolpath.Stock.Field

/-!
# Carving

A flat-end cutter whose tip stands at a point clears the cells whose centers lie in the cylinder
above the tip: within its radius in the plane and between the tip and ten radii above it. The
radius gets a thousandth added, so that centers on the rim are cut.

Only the cells in the bounding box of the cylinder are looked at. Along each axis `cellRange?`
gives the cells whose centers lie in an interval.
-/

namespace Toolpath

namespace Carve

variable {R : Type}

/-- The height of the cylinder in radii. -/
def shankRadii [Scalar R] : R := 10

/-- What is added to the radius. -/
def rim [Scalar R] : R := 100 * Scalar.precision

/-- The first and last of `count` cells whose centers lie between `lo` and `hi`, along an axis that
starts at `start` and has cells of length `pitch`. -/
def cellRange? [Scalar R] (lo hi start pitch : R) (count : Nat) : Option (Nat × Nat) :=
  let first := Scalar.greater (Scalar.ceil ((lo - start) / pitch - 1 / 2)) 0
  let last := Scalar.floor ((hi - start) / pitch - 1 / 2)
  if last < first ∨ Scalar.ofNat count ≤ first then none
  else some (Scalar.toNat first, min (Scalar.toNat last) (count - 1))

/-- A step taken for each of `n` numbers from `i` on. -/
@[specialize] def stepsFrom {σ : Type} (step : Nat → σ → σ) : Nat → Nat → σ → σ
  | _, 0, s => s
  | i, n + 1, s => stepsFrom step (i + 1) n (step i s)

/-- A step taken for each number of an interval, both ends included. -/
@[inline] def steps {σ : Type} (range : Nat × Nat) (step : Nat → σ → σ) (s : σ) : σ :=
  stepsFrom step range.1 (range.2 + 1 - range.1) s

/-- A field on which cells have been cut, and how many. -/
structure Progress (R : Type) where
  /-- The field. -/
  field : VoxelField R
  /-- The number of cells cut. -/
  removed : Nat

/-- A cell cut, and counted if it was solid. -/
@[inline] def Progress.clear (p : Progress R) (x y z : Nat) : Progress R :=
  match p.field.clear x y z with
  | (was, field) => ⟨field, if was then p.removed + 1 else p.removed⟩

/-- The radius of the cylinder that a cutter clears. -/
@[inline] def reach [Scalar R] (diameter : R) : R := diameter / 2 + rim

/-- The distance of the center of cell `i` from `at`, along an axis with cells of length
`pitch`. -/
@[inline] def fromCenter [Scalar R] (pitch place : R) (i : Nat) : R :=
  (Scalar.ofNat i + 1 / 2) * pitch - place

/-- The cells cleared in the box of three ranges: those of a column if its center is within the
radius. -/
@[specialize] def clearBox [Scalar R] (px py r2 : R) (tip : Vec3 R) (xs ys zs : Nat × Nat)
    (p : Progress R) : Progress R :=
  steps ys (fun y p =>
    let dy := fromCenter py tip.y y
    steps xs (fun x p =>
      let dx := fromCenter px tip.x x
      if r2 < dx * dx + dy * dy then p
      else steps zs (fun z p => p.clear x y z) p) p) p

/-- A cutter of a diameter with its tip at a point of the stock, whose coordinates run from zero
upward in X and Y and from the bottom up to zero in Z. -/
@[specialize] def carve [Scalar R] (field : VoxelField R) (tip : Vec3 R) (diameter : R) :
    Progress R :=
  let radius := reach diameter
  let pitch := field.pitch
  let counts := field.counts
  match cellRange? (tip.x - radius) (tip.x + radius) 0 pitch.x counts.x,
      cellRange? (tip.y - radius) (tip.y + radius) 0 pitch.y counts.y,
      cellRange? tip.z (tip.z + shankRadii * radius) (-field.size.z) pitch.z counts.z with
  | some xs, some ys, some zs => clearBox pitch.x pitch.y (radius * radius) tip xs ys zs ⟨field, 0⟩
  | _, _, _ => ⟨field, 0⟩

end Carve

end Toolpath
