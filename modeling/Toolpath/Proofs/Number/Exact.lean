import Mathlib.Algebra.Order.Floor.Ring
import Mathlib.Analysis.SpecialFunctions.Complex.Arg
import Mathlib.Tactic.Ring
import Toolpath.Number.Scalar

/-!
# Exact arithmetic

Geometry and scaling are written over any numbers with the operations of `Scalar` and `Analytic`.
Here these operations are those of an ordered field, without any rounding. Roots and angles are no
operations of a field: they are given beside it, as functions of which nothing is assumed. The
reals come with the real ones.

The instances are scoped. A statement about exact arithmetic opens `Toolpath.Exact`.

## Main definitions

* `Angular` — a root, a sine and a cosine beside the arithmetic
* `Exact.scalar`, `Exact.analytic`, `Exact.storage` — the operations of a field
-/

namespace Toolpath

/-- Functions that geometry needs beside the arithmetic of a field. -/
class Angular (K : Type) where
  /-- The square root. -/
  sqrt : K → K
  /-- The sine. -/
  sin : K → K
  /-- The cosine. -/
  cos : K → K
  /-- The polar angle of the point with ordinate and abscissa given in this order. -/
  atan2 : K → K → K
  /-- Half a turn. -/
  pi : K

namespace Exact

variable {K : Type}

/-- Bulk data are kept as they are. -/
scoped instance storage : Storage K K where
  widen := id
  narrow := id

@[simp] theorem widen_eq (a : K) : (Storage.widen a : K) = a := rfl

@[simp] theorem narrow_eq (a : K) : (Storage.narrow a : K) = a := rfl

/-- The functions of real analysis. -/
noncomputable scoped instance real : Angular ℝ where
  sqrt := Real.sqrt
  sin := Real.sin
  cos := Real.cos
  atan2 y x := Complex.arg ⟨x, y⟩
  pi := Real.pi

variable [Field K] [LinearOrder K] [FloorRing K]

/-- The arithmetic of an ordered field. -/
scoped instance scalar : Scalar K where
  ofNat n := n
  beq a b := decide (a = b)
  decLt _ _ := inferInstance
  decLe _ _ := inferInstance
  abs a := |a|
  sign a := if 0 ≤ a then 1 else -1
  floor a := ⌊a⌋
  ceil a := ⌈a⌉
  round a := if 0 ≤ a then ⌊a + 1 / 2⌋ else ⌈a - 1 / 2⌉
  toNat a := ⌊a⌋.toNat
  finite _ := true

/-- The arithmetic of an ordered field with the functions beside it. -/
scoped instance analytic [Angular K] : Analytic K where
  toScalar := scalar
  sqrt := Angular.sqrt
  sin := Angular.sin
  cos := Angular.cos
  atan2 := Angular.atan2
  hypot a b := Angular.sqrt (a * a + b * b)
  remainder a b := a - |b| * ⌊a / |b|⌋
  pi := Angular.pi

theorem zero_eq : @OfNat.ofNat K 0 (Scalar.instOfNat 0) = 0 := Nat.cast_zero

theorem one_eq : @OfNat.ofNat K 1 (Scalar.instOfNat 1) = 1 := Nat.cast_one

theorem precision_pos [IsStrictOrderedRing K] : (0 : K) < Scalar.precision :=
  div_pos (Nat.cast_pos.mpr Nat.one_pos) (Nat.cast_pos.mpr (by decide))

theorem lesser_eq (a b : K) : Scalar.lesser a b = min a b := by
  rw [Scalar.lesser, if_pos (le_refl a), min_comm]
  exact (min_def_lt b a).symm

theorem greater_eq (a b : K) : Scalar.greater a b = max a b := by
  rw [Scalar.greater, if_pos (le_refl a)]
  exact (max_def_lt a b).symm

end Exact

end Toolpath
