import Toolpath.Decimal.Shortest
import Toolpath.Number.Scalar

/-!
# Reading decimals

A decimal is an optional sign, digits with at most one point and at least one digit, and an
optional exponent. `read?` accepts exactly that and gives the nearest double.

`Numeral` collects what programs need to print and read numbers of a scalar type.
-/

namespace Toolpath

namespace Decimal

/-- The value of a run of digits put behind the digits of `n`. -/
def valueFrom (n : Nat) (ds : List Char) : Nat :=
  ds.foldl (fun acc c => acc * 10 + (c.toNat - '0'.toNat)) n

/-- A leading sign, as whether it was a minus, and what follows it. -/
def takeSign : List Char → Bool × List Char
  | '-' :: rest => (true, rest)
  | '+' :: rest => (false, rest)
  | rest => (false, rest)

/-- An exponent part, or zero where there is none. Nothing may follow it. -/
def readExponent? : List Char → Option Int
  | [] => some 0
  | c :: rest =>
    if c = 'e' ∨ c = 'E' then
      let (negative, ds) := takeSign rest
      if ds ≠ [] ∧ ds.all Char.isDigit then
        let n := valueFrom 0 ds
        some (if negative then -(n : Int) else n)
      else none
    else none

/-- The sign, the digits and the scale of a decimal text. -/
def parse? (text : List Char) : Option (Bool × Scaled) :=
  let (negative, body) := takeSign text
  let whole := body.takeWhile Char.isDigit
  let afterWhole := body.dropWhile Char.isDigit
  let (part, rest) := match afterWhole with
    | '.' :: more => (more.takeWhile Char.isDigit, more.dropWhile Char.isDigit)
    | more => ([], more)
  if whole = [] ∧ part = [] then none
  else
    (readExponent? rest).map fun e =>
      (negative, ⟨valueFrom (valueFrom 0 whole) part, e - part.length⟩)

/-- The double nearest to a decimal. Numbers far outside the range of doubles are decided by their
leading exponent alone. -/
def Scaled.toDouble (negative : Bool) (s : Scaled) : Double :=
  if s.mantissa = 0 then Binary.nearest negative 0 1
  else if 310 < s.leading then Binary.nearest negative (Nat.pow 2 1024) 1
  else if s.leading < -330 then Binary.nearest negative 0 1
  else Binary.nearest negative (s.mantissa * Nat.pow 10 s.exponent.toNat)
      (Nat.pow 10 (-s.exponent).toNat)

/-- The double nearest to the number a text spells. -/
def read? (text : List Char) : Option Double :=
  (parse? text).map fun (negative, s) => s.toDouble negative

end Decimal

/-- Numbers that programs print and read. -/
class Numeral (R : Type) where
  /-- A number with a fixed count of decimal places. -/
  coordinate : Nat → R → String
  /-- The number a text spells, if it spells one. -/
  read? : List Char → Option R

instance : Numeral Double where
  coordinate := Decimal.coordinate
  read? := Decimal.read?

end Toolpath
