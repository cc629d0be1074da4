import Toolpath.Geometry.Vector

/-!
# Machines and material

What a project says about the controller it is for and the stock it is cut from. Enumerations are
persisted as bytes; bytes that mean nothing read as the first value.
-/

namespace Toolpath

/-- The unit of every length in a project. -/
inductive Units where
  /-- Inches. -/
  | inch
  /-- Millimeters. -/
  | millimeter
deriving DecidableEq, Repr, Inhabited

/-- What the stock is made of. -/
inductive MaterialKind where
  /-- Aluminum. -/
  | aluminum
  /-- Foam. -/
  | foam
  /-- Plastic. -/
  | plastic
  /-- Steel. -/
  | steel
  /-- Wood. -/
  | wood
  /-- Brass. -/
  | brass
deriving DecidableEq, Repr, Inhabited

/-- The controllers that programs are written for. -/
inductive Controller where
  /-- LinuxCNC. -/
  | linuxCnc
  /-- TurboCNC. -/
  | turboCnc
  /-- Haas. -/
  | haas
deriving DecidableEq, Repr, Inhabited

namespace Units

/-- The persisted byte. -/
def toByte : Units → UInt8
  | inch => 0
  | millimeter => 1

/-- The unit with a persisted byte. -/
def ofByte (b : UInt8) : Units := if b = 1 then millimeter else inch

/-- The name of the variant. -/
def name : Units → String
  | inch => "Inch"
  | millimeter => "Millimeter"

/-- The length of one unit in inches. -/
def inches {R : Type} [Scalar R] : Units → R
  | inch => 1
  | millimeter => 1 / (254 / 10)

@[simp] theorem ofByte_toByte (u : Units) : ofByte u.toByte = u := by cases u <;> rfl

end Units

namespace MaterialKind

/-- Every kind of material, in the order of the bytes. -/
def all : List MaterialKind := [aluminum, foam, plastic, steel, wood, brass]

/-- The persisted byte. -/
def toByte : MaterialKind → UInt8
  | aluminum => 0
  | foam => 1
  | plastic => 2
  | steel => 3
  | wood => 4
  | brass => 5

/-- The kind with a persisted byte. -/
def ofByte (b : UInt8) : MaterialKind := (all[b.toNat]?).getD aluminum

/-- The name of the kind. -/
def name : MaterialKind → String
  | aluminum => "Aluminum"
  | foam => "Foam"
  | plastic => "Plastic"
  | steel => "Steel"
  | wood => "Wood"
  | brass => "Brass"

@[simp] theorem ofByte_toByte (k : MaterialKind) : ofByte k.toByte = k := by cases k <;> rfl

end MaterialKind

namespace Controller

/-- The persisted byte. -/
def toByte : Controller → UInt8
  | linuxCnc => 0
  | turboCnc => 1
  | haas => 2

/-- The controller with a persisted byte. -/
def ofByte (b : UInt8) : Controller := if b = 1 then turboCnc else if b = 2 then haas else linuxCnc

/-- The name shown to people. -/
def name : Controller → String
  | linuxCnc => "LinuxCNC"
  | turboCnc => "TurboCNC"
  | haas => "Haas"

/-- The number of decimal places in programs that ask for none. -/
def defaultDecimals : Controller → UInt8
  | linuxCnc => 5
  | turboCnc => 4
  | haas => 5

@[simp] theorem ofByte_toByte (c : Controller) : ofByte c.toByte = c := by cases c <;> rfl

end Controller

/-- The machine a project is for. -/
structure Machine where
  /-- The name. -/
  name : String := ""
  /-- Option bits; the lowest one asks the operator before every tool change. -/
  options : UInt8 := 0
  /-- The controller. -/
  controller : Controller := .linuxCnc
  /-- The number of decimal places in programs; zero leaves it to the controller. -/
  decimals : UInt8 := 0
deriving DecidableEq, Repr, Inhabited

/-- The number of decimal places used in programs. -/
def Machine.effectiveDecimals (m : Machine) : UInt8 :=
  if m.decimals = 0 then m.controller.defaultDecimals else m.decimals

/-- Whether the operator is asked before every tool change. -/
def Machine.prompts (m : Machine) : Bool := m.options &&& 1 != 0

/-- The stock a project is cut from. -/
structure Material (R : Type) where
  /-- The extents of the stock. -/
  size : Vec3 R
  /-- The place of program zero in the stock, from its least X, least Y, top corner. -/
  origin : Vec3 R
  /-- The height at which the tool clears everything. -/
  clearance : R
  /-- What it is made of. -/
  kind : MaterialKind
  /-- The unit of every length in the project. -/
  units : Units
deriving DecidableEq, Repr

namespace Material

variable {R : Type} [Scalar R]

/-- The material of a new project. -/
def standard : Material R where
  size := ⟨4, 4, 1 / 2⟩
  origin := ⟨0, 0, 0⟩
  clearance := 1 / 10
  kind := .aluminum
  units := .inch

/-- Lengths multiplied. -/
def scale (m : Material R) (k : R) : Material R :=
  { m with size := m.size.scale k, origin := m.origin.scale k, clearance := m.clearance * k }

end Material

end Toolpath
