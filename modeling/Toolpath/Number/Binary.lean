import Toolpath.Number.Double
import Toolpath.Number.Rounding

/-!
# Exact values of doubles

A finite double is `± mantissa · 2 ^ exponent`. `Binary.ofDouble?` reads that triple off the bits
and `Binary.nearest` goes back, from an arbitrary ratio of natural numbers to the double nearest
to it. Together they give the operations that have to be exact before they are rounded: decimal
reading and printing, the remainder of a division, and the length of a hypotenuse.
-/

namespace Toolpath

/-- An exact binary number, `± mantissa · 2 ^ exponent`. -/
structure Binary where
  /-- Whether the number carries a minus sign; a zero may carry one. -/
  negative : Bool
  /-- The magnitude before scaling. -/
  mantissa : Nat
  /-- The power of two that scales the mantissa. -/
  exponent : Int
deriving DecidableEq, Repr, Inhabited

namespace Binary

/-- The numerator of the magnitude as a ratio of natural numbers. -/
def numerator (b : Binary) : Nat := b.mantissa * Nat.pow 2 b.exponent.toNat

/-- The denominator of the magnitude as a ratio of natural numbers. -/
def denominator (b : Binary) : Nat := Nat.pow 2 (-b.exponent).toNat

/-- The bit that the mantissa of a normal double has in front, which is not stored. It is the lowest
bit of the stored exponent. -/
def hiddenBit : Nat := 0x10000000000000

/-- The bit that is set for a minus sign. -/
def signBit : Nat := 0x8000000000000000

/-- The stored exponent of what is no finite number. -/
def nonfiniteExponent : Nat := 0x7FF

/-- The exact value of a double, or nothing for an infinity or a NaN. -/
def ofDouble? (x : Double) : Option Binary :=
  let bits : Nat := x.bits.toNat
  let negative : Bool := bits / signBit % 2 = 1
  let biased : Nat := bits / hiddenBit % 0x800
  let fraction : Nat := bits % hiddenBit
  if biased = nonfiniteExponent then none
  else if biased = 0 then some ⟨negative, fraction, -1074⟩
  else some ⟨negative, fraction + hiddenBit, (biased : Int) - 1075⟩

/-- `n / d` divided by `2 ^ q`, as a ratio. -/
private def scaled (n d : Nat) (q : Int) : Nat × Nat :=
  (n * Nat.pow 2 (-q).toNat, d * Nat.pow 2 q.toNat)

/-- The exponent of the last bit of the double nearest to `n / d`: it leaves 53 bits in front of
the binary point, or fewer where the number is too small for that. -/
def lastBit (n d : Nat) : Int :=
  let guess := (Nat.log2 n : Int) - Nat.log2 d - 52
  let s := scaled n d guess
  let q := if s.1 / s.2 < hiddenBit then guess - 1 else guess
  max q (-1074)

/-- The bits of the double nearest to `n / d`, ties to even, without a sign. -/
def nearestBits (n d : Nat) : Nat :=
  if n = 0 then 0
  else
    let q := lastBit n d
    let s := scaled n d q
    let m := Rounding.divEven s.1 s.2
    let bits := if m < hiddenBit then m else (q + 1075).toNat * hiddenBit + (m - hiddenBit)
    min bits (nonfiniteExponent * hiddenBit)

/-- The double nearest to `± n / d`, ties to even; past the largest finite double it is an
infinity. -/
def nearest (negative : Bool) (n d : Nat) : Double :=
  ⟨UInt64.ofNat (nearestBits n d + if negative then signBit else 0)⟩

/-- The double nearest to an exact binary number. -/
def toDouble (b : Binary) : Double := nearest b.negative b.numerator b.denominator

/-- The magnitude of `b` in units of `2 ^ e`, for an `e` not above its exponent. -/
def inUnits (b : Binary) (e : Int) : Nat := b.mantissa * Nat.pow 2 (b.exponent - e).toNat

/-- The remainder of `a` after taking off whole multiples of `b`, with the sign of `a`. -/
def remainder (a b : Binary) : Binary :=
  let e := min a.exponent b.exponent
  ⟨a.negative, a.inUnits e % b.inUnits e, e⟩

/-- The length of the hypotenuse over legs `a` and `b`, to more than twice the precision of a
double; the last bit is set exactly where something was cut off, so rounding the result rounds
the exact length. -/
def hypotenuse (a b : Binary) : Binary :=
  let e := min a.exponent b.exponent
  let square := (a.inUnits e * a.inUnits e + b.inUnits e * b.inUnits e) * Nat.pow 4 64
  let root := Nat.sqrt square
  ⟨false, 2 * root + (if root * root = square then 0 else 1), e - 65⟩

end Binary

end Toolpath
