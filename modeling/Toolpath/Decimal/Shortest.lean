import Toolpath.Decimal.Fixed

/-!
# The shortest decimal that reads back

`shortest?` finds the decimal with the fewest digits among those that round to a given double; of
several it takes the nearest, of two equally near the even one. The search tries one digit, two
digits and so on. On each grid only the two neighbours of the value matter: where a point of the
grid lies in the interval of numbers that round to the double, so does one of them.

How such a decimal is laid out is a `Style`: which exponents are written positionally, whether a
whole number keeps `.0`, and whether an exponent carries a plus sign.
-/

namespace Toolpath

namespace Decimal

/-- A decimal number, `mantissa · 10 ^ exponent`. -/
structure Scaled where
  /-- The digits. -/
  mantissa : Nat
  /-- The power of ten that scales them. -/
  exponent : Int
deriving DecidableEq, Repr

/-- Whether `c · 10 ^ g` compares with `x · 2 ^ e` in the way `rel` asks for. -/
private def compares (rel : Nat → Nat → Bool) (c : Nat) (g : Int) (x : Nat) (e : Int) : Bool :=
  rel (c * Nat.pow 10 g.toNat * Nat.pow 2 (-e).toNat)
    (x * Nat.pow 2 e.toNat * Nat.pow 10 (-g).toNat)

/-- Whether `c · 10 ^ g` rounds to the positive double `b`. Its neighbours are a unit of the last
bit away, below a power of two half a unit; an end of the interval belongs to it when the last bit
is even. -/
def roundsTo (b : Binary) (c : Nat) (g : Int) : Bool :=
  let below := if b.mantissa = Binary.hiddenBit ∧ -1074 < b.exponent then 1 else 2
  let low := 4 * b.mantissa - below
  let high := 4 * b.mantissa + 2
  let e := b.exponent - 2
  if b.mantissa % 2 = 0 then
    compares (fun c x => decide (x ≤ c)) c g low e &&
      compares (fun c x => decide (c ≤ x)) c g high e
  else
    compares (fun c x => decide (x < c)) c g low e &&
      compares (fun c x => decide (c < x)) c g high e

/-- The decimal on the grid `10 ^ g` that rounds to `b` and lies nearest to it, if there is one. -/
def onGrid? (b : Binary) (g : Int) : Option Scaled :=
  let r := inPowersOfTen b.numerator b.denominator g
  let low := r.1 / r.2
  let lowFits := roundsTo b low g
  let highFits := roundsTo b (low + 1) g
  if lowFits && highFits then some ⟨Rounding.divEven r.1 r.2, g⟩
  else if lowFits then some ⟨low, g⟩
  else if highFits then some ⟨low + 1, g⟩
  else none

/-- The first hit on the grids that follow `10 ^ g`, each ten times finer than the one before. -/
def searchGrids (b : Binary) : Nat → Int → Option Scaled
  | 0, _ => none
  | more + 1, g =>
    match onGrid? b g with
    | some s => some s
    | none => searchGrids b more (g - 1)

/-- The shortest decimal that reads back as the positive number `b`. -/
def shortest (b : Binary) : Scaled :=
  (searchGrids b 17 (leadingExponent b.numerator b.denominator)).getD ⟨0, 0⟩

/-- How a shortest decimal is laid out. -/
structure Style where
  /-- The exponents of the leading digit that are written positionally; all of them if absent. -/
  positional : Option (Int × Int)
  /-- Whether a whole number written positionally ends in `.0`. -/
  keepPoint : Bool
  /-- Whether an exponent that is not negative carries a plus sign. -/
  plusSign : Bool

/-- The digits of a decimal, without zeros at the end. -/
def Scaled.stripped (s : Scaled) : List Char :=
  ((digits s.mantissa).reverse.dropWhile (· = '0')).reverse

/-- The exponent of the leading digit. -/
def Scaled.leading (s : Scaled) : Int :=
  ((digits s.mantissa).length : Int) - 1 + s.exponent

/-- Digits with the point placed after the digit of exponent zero. -/
def positionalText (style : Style) (ds : List Char) (k : Int) : List Char :=
  if k < 0 then '0' :: '.' :: (List.replicate (-k - 1).toNat '0' ++ ds)
  else
    let whole := ds.take (k + 1).toNat
    let part := ds.drop (k + 1).toNat
    let padded := whole ++ List.replicate ((k + 1).toNat - whole.length) '0'
    if part = [] then if style.keepPoint then padded ++ ['.', '0'] else padded
    else padded ++ '.' :: part

/-- Digits with one digit before the point, followed by the exponent. -/
def exponentText (style : Style) (ds : List Char) (k : Int) : List Char :=
  let mark := if style.plusSign && decide (0 ≤ k) then "e+" else "e"
  let body := match ds with
    | d :: e :: rest => d :: '.' :: e :: rest
    | _ => ds
  body ++ mark.toList ++ (toString k).toList

/-- The magnitude of a finite number in a style. -/
def Style.magnitude (style : Style) (b : Binary) : List Char :=
  if b.mantissa = 0 then if style.keepPoint then ['0', '.', '0'] else ['0']
  else
    let s := shortest b
    let k := s.leading
    match style.positional with
    | none => positionalText style s.stripped k
    | some (lo, hi) =>
      if lo ≤ k ∧ k ≤ hi then positionalText style s.stripped k
      else exponentText style s.stripped k

/-- A double in a style. -/
def Style.text (style : Style) (x : Double) : String :=
  match Binary.ofDouble? x with
  | none => nonfinite x
  | some b => String.ofList (if b.negative then '-' :: style.magnitude b else style.magnitude b)

/-- Numbers in running text: never an exponent, whole numbers without a point. -/
def plain : Style := ⟨none, false, false⟩

/-- Numbers in messages: an exponent below `1e-4` and from `1e16` up. -/
def precise : Style := ⟨some (-4, 15), true, false⟩

/-- Numbers in JSON: an exponent below `1e-5` and from `1e16` up, always with its sign. -/
def json : Style := ⟨some (-5, 15), true, true⟩

end Decimal

end Toolpath
