import Toolpath.Number.Binary

/-!
# Numbers a toolpath is computed with

Geometry, scaling, emission and carving are written once, over any type with the operations of
`Scalar` (ordered arithmetic with rounding to whole numbers) or `Analytic` (square roots and
angles besides). Machines use the instances for `Double`. No law is assumed here: a statement about
exact arithmetic instantiates the classes with an ordered field, and a statement that holds
whatever the operations return needs no law at all.

`Storage` relates a number type to the half-width type in which bulk data is kept.
-/

namespace Toolpath

/-- Ordered arithmetic with rounding to whole numbers. -/
class Scalar (R : Type) extends Add R, Sub R, Mul R, Div R, Neg R, LT R, LE R, BEq R where
  /-- A natural number as a scalar. -/
  ofNat : Nat → R
  /-- The strict order is decidable. -/
  decLt : ∀ a b : R, Decidable (a < b)
  /-- The order is decidable. -/
  decLe : ∀ a b : R, Decidable (a ≤ b)
  /-- The magnitude of a number. -/
  abs : R → R
  /-- One with the sign of a number, a zero having the sign it carries. -/
  sign : R → R
  /-- The greatest whole number not above. -/
  floor : R → R
  /-- The least whole number not below. -/
  ceil : R → R
  /-- The nearest whole number, a half going away from zero. -/
  round : R → R
  /-- The whole part as a natural number; zero for what is negative or no number. -/
  toNat : R → Nat
  /-- Whether the value is a number of finite size. -/
  finite : R → Bool

namespace Scalar

variable {R : Type} [Scalar R]

instance (a b : R) : Decidable (a < b) := Scalar.decLt a b

instance (a b : R) : Decidable (a ≤ b) := Scalar.decLe a b

instance (priority := low) instOfNat (n : Nat) : OfNat R n := ⟨Scalar.ofNat n⟩

instance : Inhabited R := ⟨Scalar.ofNat 0⟩

/-- One unit in the fifth decimal place. Points closer than this coincide, and feeds that differ by
less are the same. -/
@[inline] def precision : R := Scalar.ofNat 1 / Scalar.ofNat 100000

/-- The lesser of two numbers. An operand that is no number loses; of equals the left one stays. -/
@[inline] def lesser (a b : R) : R :=
  if a ≤ a then if b < a then b else a else b

/-- The greater of two numbers. An operand that is no number loses; of equals the left one
stays. -/
@[inline] def greater (a b : R) : R :=
  if a ≤ a then if a < b then b else a else b

/-- `x` moved into the interval from `lo` to `hi`. -/
@[inline] def clamp (lo hi x : R) : R :=
  if x < lo then lo else if hi < x then hi else x

/-- Accumulated multiples of `step`, from `mark` on as long as they stay below `bound`, behind those
of `done`, which is given backwards. -/
def marksFrom (step bound : R) : Nat → R → List R → List R
  | 0, _, done => done.reverse
  | fuel + 1, mark, done =>
    if mark < bound then marksFrom step bound fuel (mark + step) (mark :: done) else done.reverse

/-- The marks `step`, `step + step`, … that lie below `bound`.

Twice the quotient is room enough for the accumulation: rounding shortens no increment that makes
progress by more than half. -/
def marks (step bound : R) : List R :=
  marksFrom step bound (2 * Scalar.toNat (Scalar.ceil (bound / step)) + 2) step []

theorem marksFrom_eq_append (step bound : R) (fuel : Nat) (mark : R) (done : List R) :
    marksFrom step bound fuel mark done = done.reverse ++ marksFrom step bound fuel mark [] := by
  induction fuel generalizing mark done with
  | zero => simp [marksFrom]
  | succ fuel ih =>
    rw [marksFrom, marksFrom]
    split
    · rw [ih _ (mark :: done), ih _ [mark]]; simp
    · simp

end Scalar

/-- Scalars with square roots and angles. Angles are in radians. -/
class Analytic (R : Type) extends Scalar R where
  /-- The square root. -/
  sqrt : R → R
  /-- The sine. -/
  sin : R → R
  /-- The cosine. -/
  cos : R → R
  /-- The polar angle of the point with ordinate and abscissa given in this order. -/
  atan2 : R → R → R
  /-- The length of the hypotenuse over two legs. -/
  hypot : R → R → R
  /-- The remainder of a division, between zero and the magnitude of the divisor. -/
  remainder : R → R → R
  /-- Half a turn. -/
  pi : R

namespace Analytic

variable {R : Type} [Analytic R]

/-- A full turn. -/
@[inline] def turn : R := 2 * pi

/-- An angle in degrees as radians. -/
@[inline] def radians (degrees : R) : R := degrees * (pi / 180)

end Analytic

/-- Bulk data of numbers `R` is kept in the narrower type `S`. -/
class Storage (R S : Type) where
  /-- A stored value as a number. -/
  widen : S → R
  /-- The stored value nearest to a number. -/
  narrow : R → S

/-! ### Doubles -/

namespace Double

/-- The remainder of `a` by `b`, not negative. It is exact up to the addition that lifts a
negative remainder. -/
def remainder (a b : Double) : Double :=
  match Binary.ofDouble? a, Binary.ofDouble? b with
  | some x, some y =>
    if y.mantissa = 0 then indefinite
    else
      let r := (x.remainder y).toDouble
      if r < 0.0 then r + b.abs else r
  | some _, none => if b.isNaN then b.quiet else if a < 0.0 then a + b.abs else a
  | none, _ => if a.isNaN then a.quiet else if b.isNaN then b.quiet else indefinite

/-- The double nearest to the length of the hypotenuse over `a` and `b`. -/
def hypot (a b : Double) : Double :=
  match Binary.ofDouble? a, Binary.ofDouble? b with
  | some x, some y => (x.hypotenuse y).toDouble
  | _, _ =>
    if a.isInfinite || b.isInfinite then infinity else if a.isNaN then a.quiet else b.quiet

end Double

instance : Scalar Double where
  ofNat := Double.ofNat
  decLt a b := inferInstanceAs (Decidable (a < b))
  decLe a b := inferInstanceAs (Decidable (a ≤ b))
  abs := Double.abs
  sign := Double.sign
  floor := Double.apply Float.floor
  ceil := Double.apply Float.ceil
  round := Double.apply Float.round
  toNat := Double.toNat
  finite := Double.isFinite

instance : Analytic Double where
  sqrt := Double.apply Float.sqrt
  sin := Double.apply Float.sin
  cos := Double.apply Float.cos
  atan2 := Double.combine Float.atan2
  hypot := Double.hypot
  remainder := Double.remainder
  pi := 3.141592653589793

instance : Storage Double Single where
  widen := Single.widen
  narrow := Single.narrow

end Toolpath
