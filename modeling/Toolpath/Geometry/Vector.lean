import Toolpath.Number.Scalar

/-!
# Points and vectors

Points and vectors share one type per dimension: `Vec2` for the machining plane, `Vec3` for
machine space. Whether a value is a place or a displacement is said where it is used.
-/

namespace Toolpath

/-- A point or vector of the XY plane. -/
structure Vec2 (R : Type) where
  /-- The X coordinate. -/
  x : R
  /-- The Y coordinate. -/
  y : R
deriving DecidableEq, Repr

/-- A point or vector of machine space. -/
structure Vec3 (R : Type) where
  /-- The X coordinate. -/
  x : R
  /-- The Y coordinate. -/
  y : R
  /-- The Z coordinate. -/
  z : R
deriving DecidableEq, Repr

namespace Vec2

variable {R : Type}

section Arithmetic

variable [Scalar R]

instance : Add (Vec2 R) := ⟨fun a b => ⟨a.x + b.x, a.y + b.y⟩⟩

instance : Sub (Vec2 R) := ⟨fun a b => ⟨a.x - b.x, a.y - b.y⟩⟩

@[simp] theorem add_x (a b : Vec2 R) : (a + b).x = a.x + b.x := rfl

@[simp] theorem add_y (a b : Vec2 R) : (a + b).y = a.y + b.y := rfl

@[simp] theorem sub_x (a b : Vec2 R) : (a - b).x = a.x - b.x := rfl

@[simp] theorem sub_y (a b : Vec2 R) : (a - b).y = a.y - b.y := rfl

/-- The origin. -/
def zero : Vec2 R := ⟨0, 0⟩

/-- A vector multiplied by a number. -/
def scale (v : Vec2 R) (k : R) : Vec2 R := ⟨v.x * k, v.y * k⟩

/-- A vector divided by a number. -/
def divBy (v : Vec2 R) (k : R) : Vec2 R := ⟨v.x / k, v.y / k⟩

/-- The square of the length. -/
def normSq (v : Vec2 R) : R := v.x * v.x + v.y * v.y

end Arithmetic

variable [Analytic R]

/-- The length of a vector. -/
def norm (v : Vec2 R) : R := Analytic.sqrt v.normSq

/-- A point turned about the origin, counter-clockwise, by an angle in degrees. -/
def rotate (p : Vec2 R) (degrees : R) : Vec2 R :=
  let angle := Analytic.radians degrees
  let s := Analytic.sin angle
  let c := Analytic.cos angle
  ⟨p.x * c - p.y * s, p.x * s + p.y * c⟩

/-- The polar angle of a vector, brought into the turn that starts at zero. -/
def angle (v : Vec2 R) : R :=
  let a := Analytic.atan2 v.y v.x
  if a < 0 then a + Analytic.turn else a

/-- The point at `angle` on the circle of `radius` around `center`. -/
def onCircle (center : Vec2 R) (radius angle : R) : Vec2 R :=
  ⟨center.x + radius * Analytic.cos angle, center.y + radius * Analytic.sin angle⟩

/-- Whether two points lie closer together than the precision. -/
def coincide (a b : Vec2 R) : Bool := decide ((a - b).norm < Scalar.precision)

end Vec2

namespace Vec3

variable {R : Type}

/-- A function applied to each coordinate. -/
def map {R' : Type} (f : R → R') (v : Vec3 R) : Vec3 R' := ⟨f v.x, f v.y, f v.z⟩

/-- The coordinates in the order of the axes. -/
def toList (v : Vec3 R) : List R := [v.x, v.y, v.z]

section Arithmetic

variable [Scalar R]

instance : Add (Vec3 R) := ⟨fun a b => ⟨a.x + b.x, a.y + b.y, a.z + b.z⟩⟩

instance : Sub (Vec3 R) := ⟨fun a b => ⟨a.x - b.x, a.y - b.y, a.z - b.z⟩⟩

/-- A vector multiplied by a number. -/
def scale (v : Vec3 R) (k : R) : Vec3 R := ⟨v.x * k, v.y * k, v.z * k⟩

/-- A vector divided by a number. -/
def divBy (v : Vec3 R) (k : R) : Vec3 R := ⟨v.x / k, v.y / k, v.z / k⟩

/-- The square of the length. -/
def normSq (v : Vec3 R) : R := v.x * v.x + v.y * v.y + v.z * v.z

/-- Equality of numbers in each coordinate; what is no number equals nothing. -/
def same (a b : Vec3 R) : Bool := a.x == b.x && a.y == b.y && a.z == b.z

end Arithmetic

/-- The length of a vector. -/
def norm [Analytic R] (v : Vec3 R) : R := Analytic.sqrt v.normSq

end Vec3

end Toolpath
