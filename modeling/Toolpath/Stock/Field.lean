import Toolpath.Geometry.Vector

/-!
# Voxel fields

A voxel field divides the box of the stock into cells, each solid or cut. The longest side gets as
many cells as the resolution says; the other sides get as many as keep the cells close to cubes,
and at least one. Cells are stored in one run of bytes, X fastest and Z slowest, 1 for solid.

The counts come out of unreliable arithmetic — a side may be negative or no number at all — and
are safe only because each is clamped between one and the resolution.
-/

namespace Toolpath

/-- Cells of stock, solid or cut. -/
structure VoxelField (R : Type) where
  /-- The number of cells asked for along the longest side. -/
  resolution : UInt32
  /-- The size of the stock. -/
  size : Vec3 R
  /-- The number of cells along each axis. -/
  counts : Vec3 Nat
  /-- The cells, 1 for solid and 0 for cut. -/
  cells : ByteArray

namespace VoxelField

variable {R : Type}

/-- The resolution of a new field. -/
def defaultResolution : UInt32 := 64

/-- The greatest resolution; what is asked for beyond it is clamped. -/
def maxResolution : UInt32 := 512

/-- Solid cells put behind those already there. -/
def pushSolid : Nat → ByteArray → ByteArray
  | 0, cells => cells
  | n + 1, cells => pushSolid n (cells.push 1)

/-- A run of solid cells. -/
def solidCells (n : Nat) : ByteArray := pushSolid n (ByteArray.emptyWithCapacity n)

/-- The resolution brought into the range from one to the greatest. -/
def clampResolution (r : UInt32) : UInt32 :=
  if r < 1 then 1 else if maxResolution < r then maxResolution else r

/-- The greatest of the sides, or zero. -/
def longestSide [Scalar R] (size : Vec3 R) : R := size.toList.foldl Scalar.greater 0

/-- The number of cells along a side of length `s` where the longest one has length `longest` and
`resolution` cells. -/
def countAlong [Scalar R] (resolution : Nat) (longest s : R) : Nat :=
  if longest ≤ 0 then 1
  else
    let n := Scalar.toNat (Scalar.round (Scalar.ofNat resolution * s / longest))
    max 1 (min n resolution)

/-- The number of cells of a grid. -/
def cellCount (counts : Vec3 Nat) : Nat := counts.x * counts.y * counts.z

/-- A product, if a word of the machine can hold it. -/
def product? (m n : Nat) : Option Nat := if m * n < UInt64.size then some (m * n) else none

/-- The number of cells of a grid, if a word of the machine can hold it. -/
def cellCount? (counts : Vec3 Nat) : Option Nat := do
  product? (← product? counts.x counts.y) counts.z

/-- A grid with the number of its cells, or a single cell if there are too many of them to be
counted. -/
def counted (counts : Vec3 Nat) : Vec3 Nat × Nat :=
  match cellCount? counts with
  | some n => (counts, n)
  | none => (⟨1, 1, 1⟩, 1)

/-- A solid field for stock of a size. -/
def solid [Scalar R] (resolution : UInt32) (size : Vec3 R) : VoxelField R :=
  let resolution := clampResolution resolution
  let grid := counted (size.map (countAlong resolution.toNat (longestSide size)))
  ⟨resolution, size, grid.1, solidCells grid.2⟩

/-- The field with every cell solid again. -/
def reset (f : VoxelField R) : VoxelField R := { f with cells := solidCells f.cells.size }

/-- The edges of a cell. -/
def pitch [Scalar R] (f : VoxelField R) : Vec3 R :=
  ⟨f.size.x / Scalar.ofNat f.counts.x, f.size.y / Scalar.ofNat f.counts.y,
    f.size.z / Scalar.ofNat f.counts.z⟩

/-- The position of a cell in the run of bytes. -/
@[inline] def index (f : VoxelField R) (x y z : Nat) : Nat :=
  (z * f.counts.y + y) * f.counts.x + x

/-- Whether there is a cell with these coordinates. -/
@[inline] def inside (f : VoxelField R) (x y z : Nat) : Bool :=
  decide (x < f.counts.x) && decide (y < f.counts.y) && decide (z < f.counts.z)

/-- The value of a cell, if there is such a cell. -/
def get? (f : VoxelField R) (x y z : Nat) : Option UInt8 :=
  if f.inside x y z then f.cells.data[f.index x y z]? else none

/-- A cell cut, and whether it was solid. Outside the grid nothing happens. -/
def clear (f : VoxelField R) (x y z : Nat) : Bool × VoxelField R :=
  if f.inside x y z then
    let i := f.index x y z
    (f.cells.get! i != 0, { f with cells := f.cells.set! i 0 })
  else (false, f)

/-- The number of cells. -/
def length (f : VoxelField R) : Nat := f.cells.size

/-- How many of the first `n` cells are solid. -/
def solidAmong (cells : ByteArray) : Nat → Nat → Nat
  | 0, acc => acc
  | n + 1, acc => solidAmong cells n (if cells.get! n != 0 then acc + 1 else acc)

/-- The number of solid cells. -/
def solidCount (f : VoxelField R) : Nat := solidAmong f.cells f.cells.size 0

end VoxelField

end Toolpath
