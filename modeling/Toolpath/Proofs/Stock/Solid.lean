import Toolpath.Stock.Field

/-!
# Solid fields

A field that was just made has a cell wherever its counts say so, and every cell is solid. The
resolution that it was asked for is clamped, once and for all.

## Main results

* `VoxelField.solid_eq` — the cells of a new field can be counted
* `VoxelField.get?_solid` — every cell of a new field is solid
* `VoxelField.solid_clampResolution` — a resolution is clamped once
-/

namespace Toolpath

namespace VoxelField

variable {R : Type}

theorem data_pushSolid (n : Nat) (cells : ByteArray) :
    (pushSolid n cells).data = cells.data ++ Array.replicate n 1 := by
  induction n generalizing cells with
  | zero => simp [pushSolid]
  | succ n ih =>
    have hpush : (cells.push 1).data = cells.data.push 1 := rfl
    rw [pushSolid, ih, hpush]
    apply Array.ext'
    simp [List.replicate_succ]

@[simp] theorem data_solidCells (n : Nat) : (solidCells n).data = Array.replicate n 1 := by
  rw [solidCells, data_pushSolid]
  exact Array.empty_append

/-- A cell has its place in the run of bytes. -/
theorem index_lt_cellCount {f : VoxelField R} {x y z : Nat} (h : f.inside x y z) :
    f.index x y z < cellCount f.counts := by
  obtain ⟨⟨hx, hy⟩, hz⟩ : (x < f.counts.x ∧ y < f.counts.y) ∧ z < f.counts.z := by
    simpa [inside] using h
  have hrow : z * f.counts.y + y + 1 ≤ f.counts.z * f.counts.y := by
    have := Nat.mul_le_mul_right f.counts.y (Nat.succ_le_of_lt hz)
    rw [Nat.succ_mul] at this
    omega
  calc f.index x y z
      < (z * f.counts.y + y) * f.counts.x + f.counts.x := Nat.add_lt_add_left hx _
    _ = (z * f.counts.y + y + 1) * f.counts.x := (Nat.succ_mul _ _).symm
    _ ≤ f.counts.z * f.counts.y * f.counts.x := Nat.mul_le_mul_right _ hrow
    _ = cellCount f.counts := by
      rw [cellCount, Nat.mul_comm f.counts.z, Nat.mul_comm _ f.counts.x, Nat.mul_assoc]

/-! ### Resolutions -/

theorem one_le_clampResolution (r : UInt32) : 1 ≤ clampResolution r := by
  rw [clampResolution]
  split
  · decide
  · rename_i hlow
    split
    · decide
    · exact UInt32.not_lt.mp hlow

theorem clampResolution_le (r : UInt32) : clampResolution r ≤ maxResolution := by
  rw [clampResolution]
  split
  · decide
  · split
    · exact UInt32.le_refl _
    · rename_i hhigh
      exact UInt32.not_lt.mp hhigh

theorem clampResolution_of_range {r : UInt32} (hzero : r ≠ 0) (hmax : r ≤ maxResolution) :
    clampResolution r = r := by
  have hone : ¬ r < 1 := by
    rw [UInt32.lt_iff_toNat_lt]
    intro h
    exact hzero (UInt32.toNat_inj.mp (by simpa using h))
  rw [clampResolution, if_neg hone, if_neg (UInt32.not_lt.mpr hmax)]

theorem ne_zero_of_clampResolution {r : UInt32} (h : clampResolution r = r) : r ≠ 0 := by
  rintro rfl
  exact absurd h (by decide)

theorem le_of_clampResolution {r : UInt32} (h : clampResolution r = r) : ¬ maxResolution < r :=
  UInt32.not_lt.mpr (h ▸ clampResolution_le r)

/-- A resolution is clamped once. -/
theorem clampResolution_clampResolution (r : UInt32) :
    clampResolution (clampResolution r) = clampResolution r := by
  refine clampResolution_of_range (fun hzero => ?_) (clampResolution_le r)
  have hone := one_le_clampResolution r
  rw [hzero] at hone
  exact absurd hone (by decide)

/-! ### The number of cells -/

section Counts

variable [Scalar R]

/-- There is a cell along every side, however long it is said to be. -/
theorem one_le_countAlong (n : Nat) (longest s : R) : 1 ≤ countAlong n longest s := by
  rw [countAlong]
  split
  · exact Nat.le_refl 1
  · exact Nat.le_max_left _ _

/-- There are no more cells along a side than the resolution says. -/
theorem countAlong_le {n : Nat} (hn : 1 ≤ n) (longest s : R) : countAlong n longest s ≤ n := by
  rw [countAlong]
  split
  · exact hn
  · exact Nat.max_le.mpr ⟨hn, Nat.min_le_right _ _⟩

end Counts

theorem cellCount_le {counts : Vec3 Nat} {n : Nat} (hx : counts.x ≤ n) (hy : counts.y ≤ n)
    (hz : counts.z ≤ n) : cellCount counts ≤ n * n * n :=
  Nat.mul_le_mul (Nat.mul_le_mul hx hy) hz

/-- The cells of a grid can be counted if there are not too many of them along its sides. -/
theorem counted_eq {counts : Vec3 Nat} (hx : counts.x ≤ maxResolution.toNat)
    (hy : counts.y ≤ maxResolution.toNat) (hz : counts.z ≤ maxResolution.toNat) :
    counted counts = (counts, cellCount counts) := by
  have hlayer : counts.x * counts.y < UInt64.size :=
    Nat.lt_of_le_of_lt (Nat.mul_le_mul hx hy) (by decide)
  have hall : counts.x * counts.y * counts.z < UInt64.size :=
    Nat.lt_of_le_of_lt (cellCount_le hx hy hz) (by decide)
  have hcount : cellCount? counts = some (cellCount counts) := by
    rw [cellCount?, product?, if_pos hlayer]
    exact if_pos hall
  rw [counted, hcount]

/-- **A new field has the cells that were asked for.** The single cell is never needed. -/
theorem solid_eq [Scalar R] (resolution : UInt32) (size : Vec3 R) :
    solid resolution size =
      let counts := size.map
        (countAlong (clampResolution resolution).toNat (longestSide size))
      ⟨clampResolution resolution, size, counts, solidCells (cellCount counts)⟩ := by
  have hone := UInt32.le_iff_toNat_le.mp (one_le_clampResolution resolution)
  have hmax := UInt32.le_iff_toNat_le.mp (clampResolution_le resolution)
  have hcount (s : R) : countAlong (clampResolution resolution).toNat (longestSide size) s ≤
      maxResolution.toNat :=
    Nat.le_trans (countAlong_le hone _ s) hmax
  rw [solid]
  dsimp only
  rw [counted_eq (hcount size.x) (hcount size.y) (hcount size.z)]

/-- **Every cell of a new field is solid.** -/
theorem get?_solid [Scalar R] {resolution : UInt32} {size : Vec3 R} {x y z : Nat}
    (h : (solid resolution size).inside x y z) : (solid resolution size).get? x y z = some 1 := by
  have hindex := index_lt_cellCount h
  have hdata : (solid resolution size).cells.data =
      Array.replicate (cellCount (solid resolution size).counts) 1 := by
    rw [solid_eq]
    exact data_solidCells _
  rw [get?, if_pos h, hdata, Array.getElem?_replicate, if_pos hindex]

theorem solid_clampResolution [Scalar R] (r : UInt32) (size : Vec3 R) :
    solid (clampResolution r) size = solid r size := by
  rw [solid, solid, clampResolution_clampResolution]

end VoxelField

end Toolpath
