/-!
# Numbers as their bits

`Double` and `Single` are numbers in double and in single precision, held as the bits in which they
are stored. So storing a number and reading it again gives back the same number, also where it is
no number at all: a NaN carries bits beyond those that make it one, and they belong to the value.

Arithmetic is that of the machine, which says what becomes of such bits. An operation on a NaN
yields that NaN, made quiet, and of two NaNs the left one. An operation that has no result though
its operands are numbers yields `Double.indefinite`. Changing a sign and dropping it are no
arithmetic and touch no other bit.
-/

namespace Toolpath

/-- A number in double precision. -/
structure Double where
  /-- The bits: the sign, eleven bits of the exponent and the fraction. -/
  bits : UInt64
deriving DecidableEq, Repr, Inhabited

/-- A number in single precision. -/
structure Single where
  /-- The bits: the sign, eight bits of the exponent and the fraction. -/
  bits : UInt32
deriving DecidableEq, Repr, Inhabited

namespace Double

/-- The bit that is set for a minus sign. -/
def signMask : UInt64 := 0x8000000000000000

/-- The bits of the magnitude. -/
def magnitudeMask : UInt64 := 0x7FFFFFFFFFFFFFFF

/-- The bits of the exponent. A magnitude above them is that of a NaN. -/
def exponentMask : UInt64 := 0x7FF0000000000000

/-- The bit that is set in a quiet NaN. -/
def quietMask : UInt64 := 0x0008000000000000

/-- Infinity. -/
def infinity : Double := ⟨exponentMask⟩

/-- The NaN without a sign and without further bits. -/
def nan : Double := ⟨exponentMask ||| quietMask⟩

/-- What an operation yields that has no result. -/
def indefinite : Double := ⟨signMask ||| exponentMask ||| quietMask⟩

/-- Whether the value is no number. -/
@[inline] def isNaN (x : Double) : Bool := decide (exponentMask < x.bits &&& magnitudeMask)

/-- Whether the value is a number of finite size. -/
@[inline] def isFinite (x : Double) : Bool := decide (x.bits &&& magnitudeMask < exponentMask)

/-- Whether the value is an infinity. -/
@[inline] def isInfinite (x : Double) : Bool := x.bits &&& magnitudeMask == exponentMask

/-- Whether there is a minus sign; a zero and a NaN may have one. -/
@[inline] def isNegative (x : Double) : Bool := decide (signMask ≤ x.bits)

/-- A NaN made quiet. -/
@[inline] def quiet (x : Double) : Double := ⟨x.bits ||| quietMask⟩

/-- The value with the other sign. -/
@[inline] def neg (x : Double) : Double := ⟨x.bits ^^^ signMask⟩

/-- The value without its sign. -/
@[inline] def abs (x : Double) : Double := ⟨x.bits &&& magnitudeMask⟩

/-- One with the sign of a number; what is no number stays no number. -/
def sign (x : Double) : Double :=
  if x.isNaN then nan else ⟨x.bits &&& signMask ||| 0x3FF0000000000000⟩

/-- The number the machine computes with. It tells no NaN from another. -/
@[inline] def value (x : Double) : Float := Float.ofBits x.bits

/-- The bits of a number the machine computed. -/
@[inline] def ofValue (x : Float) : Double := ⟨x.toBits⟩

/-- An operation of the machine on one number. -/
@[inline] def apply (f : Float → Float) (a : Double) : Double :=
  let r := f a.value
  if !r.isNaN then ofValue r
  else if a.isNaN then a.quiet
  else indefinite

/-- An operation of the machine on two numbers. -/
@[inline] def combine (f : Float → Float → Float) (a b : Double) : Double :=
  let r := f a.value b.value
  if !r.isNaN then ofValue r
  else if a.isNaN then a.quiet
  else if b.isNaN then b.quiet
  else indefinite

/-- The number nearest to a natural number. -/
def ofNat (n : Nat) : Double :=
  ofValue (if n < UInt64.size then n.toUInt64.toFloat else Float.ofNat n)

/-- The number nearest to a whole number. -/
def ofInt : Int → Double
  | .ofNat n => ofNat n
  | .negSucc n => (ofNat (n + 1)).neg

/-- The whole part as a natural number below `2 ^ 64`; zero for what is negative or no number. -/
@[inline] def toNat (x : Double) : Nat := x.value.toUInt64.toNat

instance : Add Double := ⟨combine Float.add⟩

instance : Sub Double := ⟨combine Float.sub⟩

instance : Mul Double := ⟨combine Float.mul⟩

instance : Div Double := ⟨combine Float.div⟩

instance : Neg Double := ⟨neg⟩

instance : LT Double := ⟨fun a b => a.value < b.value⟩

instance : LE Double := ⟨fun a b => a.value ≤ b.value⟩

instance (a b : Double) : Decidable (a < b) := Float.decLt a.value b.value

instance (a b : Double) : Decidable (a ≤ b) := Float.decLe a.value b.value

instance : BEq Double := ⟨fun a b => a.value == b.value⟩

instance : OfScientific Double := ⟨fun m s e => ofValue (OfScientific.ofScientific m s e)⟩

end Double

namespace Single

/-- The bit that is set for a minus sign. -/
def signMask : UInt32 := 0x80000000

/-- The bits of the fraction. -/
def fractionMask : UInt32 := 0x007FFFFF

/-- The NaN without a sign and without further bits. -/
def nan : Single := ⟨0x7FC00000⟩

/-- A number in double precision. The further bits of a NaN are kept. -/
@[inline] def widen (x : Single) : Double :=
  let r := (Float32.ofBits x.bits).toFloat
  if !r.isNaN then Double.ofValue r
  else
    let sign := (x.bits &&& signMask).toUInt64
    let fraction := (x.bits &&& fractionMask).toUInt64
    ⟨(sign <<< 32) ||| (fraction <<< 29) ||| Double.nan.bits⟩

/-- The nearest number in single precision. As many of the further bits of a NaN are kept as there
is room for. -/
@[inline] def narrow (x : Double) : Single :=
  let r := x.value.toFloat32
  if !r.isNaN then ⟨r.toBits⟩
  else
    let sign := (x.bits >>> 32).toUInt32 &&& signMask
    let fraction := (x.bits >>> 29).toUInt32 &&& fractionMask
    ⟨sign ||| fraction ||| nan.bits⟩

end Single

end Toolpath
