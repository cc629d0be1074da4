import Toolpath.Number.Binary

/-!
# Decimals with a fixed number of places

`Fixed.digits` rounds an exact binary value to a number of decimal places, ties to even, and
`Fixed.coordinate` is the form in which programs carry numbers: a value that rounds to zero has no
minus sign. `Scientific.text` rounds to a number of significant digits instead.
-/

namespace Toolpath

namespace Decimal

/-- The decimal digits of a natural number. -/
def digits (n : Nat) : List Char := Nat.toDigits 10 n

/-- `text` with zeros put in front until it has `width` characters. -/
def padZeros (width : Nat) (text : List Char) : List Char :=
  List.replicate (width - text.length) '0' ++ text

/-- What is written for a value that is no finite number. -/
def nonfinite (x : Double) : String :=
  if x.isNaN then "NaN" else if x.isNegative then "-inf" else "inf"

/-- The value in units of the last of `places` decimal places, rounded. -/
def unitsOf (places : Nat) (b : Binary) : Nat :=
  Rounding.divEven (b.numerator * Nat.pow 10 places) b.denominator

/-- A number of units of the last of `places` decimal places, written out with its point. -/
def placed (places units : Nat) : List Char :=
  let all := padZeros (places + 1) (digits units)
  let whole := all.take (all.length - places)
  if places = 0 then whole else whole ++ '.' :: all.drop (all.length - places)

/-- The value with `places` decimals; what rounds to zero carries no sign. -/
def fixed (places : Nat) (b : Binary) : List Char :=
  let units := unitsOf places b
  if b.negative && units != 0 then '-' :: placed places units else placed places units

/-- A coordinate as programs carry it. -/
def coordinate (places : Nat) (x : Double) : String :=
  match Binary.ofDouble? x with
  | some b => String.ofList (fixed places b)
  | none => nonfinite x

/-- The exponent of the leading decimal digit of `n / d`, both positive. -/
def leadingExponent (n d : Nat) : Int :=
  if d ≤ n then ((digits (n / d)).length : Int) - 1
  else
    let len := (digits (d / n)).length
    if d = n * Nat.pow 10 (len - 1) then 1 - (len : Int) else -(len : Int)

/-- `n / d` in units of `10 ^ e`, as a ratio. -/
def inPowersOfTen (n d : Nat) (e : Int) : Nat × Nat :=
  (n * Nat.pow 10 (-e).toNat, d * Nat.pow 10 e.toNat)

/-- The value rounded to `places + 1` significant digits: those digits and the exponent of the
first. -/
def significant (places : Nat) (b : Binary) : Nat × Int :=
  if b.mantissa = 0 then (0, 0)
  else
    let k := leadingExponent b.numerator b.denominator
    let r := inPowersOfTen b.numerator b.denominator (k - places)
    let m := Rounding.divEven r.1 r.2
    if m = Nat.pow 10 (places + 1) then (Nat.pow 10 places, k + 1) else (m, k)

/-- A value in scientific form, with one digit before the point and `places` after it. -/
def scientific (places : Nat) (x : Double) : String :=
  match Binary.ofDouble? x with
  | none => nonfinite x
  | some b =>
    let s := significant places b
    let body := String.ofList (placed places s.1)
    (if b.negative then "-" else "") ++ body ++ "e" ++ toString s.2

end Decimal

end Toolpath
