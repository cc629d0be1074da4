import Toolpath.Document.Basic
import Toolpath.Simulation.Head
import Toolpath.Stock.Carve

/-!
# Simulating a program

A simulator runs a program line by line. The head says at which stations a line cuts; there the
stock is carved, in the coordinates of the stock. What the head does never depends on the stock.
-/

namespace Toolpath

/-- A machine with its stock, and what it has done so far. -/
structure Simulator (R : Type) where
  /-- The stock. -/
  stock : VoxelField R
  /-- The head. -/
  head : Head R
  /-- The length of a step. -/
  step : R
  /-- The number of steps made. -/
  steps : Nat
  /-- The distance covered, a step at a time. -/
  distance : R
  /-- The number of cells cut. -/
  removed : Nat

/-- The totals of a simulation. -/
structure SimulationReport (R : Type) where
  /-- The time that the distance takes at the last feed; zero if that is not positive. -/
  seconds : R
  /-- The number of steps made. -/
  steps : Nat
  /-- The length of a step. -/
  step : R
  /-- The distance covered, a step at a time. -/
  distance : R
  /-- The number of cells cut. -/
  removed : Nat
  /-- The feed stated last. -/
  feed : R

namespace Simulator

variable {R : Type}

/-- A simulator that has done nothing yet. -/
def start [Scalar R] (stock : VoxelField R) (head : Head R) (step : R) : Simulator R :=
  ⟨stock, head, step, 0, 0, 0⟩

/-- The stock carved with the tip at a place of the program. -/
@[specialize] def cut [Scalar R] (s : Simulator R) (place : Vec3 R) : Simulator R :=
  match s with
  | ⟨stock, head, step, steps, distance, removed⟩ =>
    match Carve.carve stock (place + head.origin) head.diameter with
    | ⟨stock, cleared⟩ => ⟨stock, head, step, steps + 1, distance + step, removed + cleared⟩

/-- A line executed. -/
@[specialize] def execute [Analytic R] (s : Simulator R) (l : ProgramLine R) : Simulator R :=
  match s with
  | ⟨stock, head, step, steps, distance, removed⟩ =>
    let (head, stations) := head.obey step l
    stations.foldl cut ⟨stock, head, step, steps, distance, removed⟩

/-- The lines of a program executed. -/
@[specialize] def run [Analytic R] [Numeral R] (s : Simulator R) (program : String) : Simulator R :=
  (Text.lines program.toList).foldl (fun s l => s.execute (ProgramLine.read l)) s

/-- The totals so far. -/
def report [Scalar R] (s : Simulator R) : SimulationReport R where
  seconds := if 0 < s.head.feed then 60 * s.distance / s.head.feed else 0
  steps := s.steps
  step := s.step
  distance := s.distance
  removed := s.removed
  feed := s.head.feed

end Simulator

/-! ### The stock of a document -/

/-- What can be chosen for a simulation. -/
structure SimulationSettings (R : Type) where
  /-- The resolution of the stock; that of the document if absent. -/
  resolution : Option UInt32
  /-- The diameter of the tool until the program names one. -/
  toolDiameter : R
  /-- Whether the stock is made solid first. -/
  reset : Bool

/-- What is chosen if nothing is said. -/
def SimulationSettings.standard {R : Type} [Scalar R] : SimulationSettings R := ⟨none, 1 / 8, true⟩

/-- Why a simulation was refused. -/
inductive SimulationError (R : Type) where
  /-- A side of the stock is not a positive number of finite size. -/
  | invalidStock (size : Vec3 R)
  /-- The resolution is zero. -/
  | zeroResolution
  /-- The resolution is beyond the greatest. -/
  | resolutionTooHigh (resolution : UInt32)

namespace SimulationError

/-- The text of an error. -/
def message : SimulationError Double → String
  | invalidStock size =>
    "invalid stock size [" ++ String.intercalate ", " (size.toList.map Decimal.precise.text) ++ "]"
  | zeroResolution => "voxel resolution must be at least 1"
  | resolutionTooHigh r =>
    "voxel resolution " ++ toString r.toNat ++ " exceeds the maximum of "
      ++ toString VoxelField.maxResolution.toNat

end SimulationError

namespace Document

variable {R S : Type} [Scalar R]

/-- Whether every side of the stock is a positive number of finite size. -/
def stockIsValid (d : Document R S) : Bool :=
  d.material.size.toList.all fun s => Scalar.finite s && !decide (s ≤ 0)

/-- The document with a voxel field for the size of its stock and a resolution, which is made anew
only if it does not fit. -/
def fitVoxels (d : Document R S) (resolution : Option UInt32) : Document R S :=
  match resolution.filter (· != d.voxels.resolution) with
  | some r => d.setResolution r
  | none => if d.voxels.size.same d.material.size then d else d.rebuildVoxels

/-- The document ready for a simulation, with its stock as it is before the first cut. -/
def prepareStock (d : Document R S) (settings : SimulationSettings R) :
    Except (SimulationError R) (Document R S) :=
  if !d.stockIsValid then .error (.invalidStock d.material.size)
  else if settings.resolution = some 0 then .error .zeroResolution
  else
    match settings.resolution.filter (VoxelField.maxResolution < ·) with
    | some r => .error (.resolutionTooHigh r)
    | none =>
      let d := d.fitVoxels settings.resolution
      .ok (if settings.reset then { d with voxels := d.voxels.reset } else d)

/-- The length of a step: an inch, in the unit of the document, divided by the resolution. -/
def simulationStep (d : Document R S) : R :=
  1 / (Scalar.ofNat d.voxels.resolution.toNat * d.material.units.inches)

/-- The head that a simulation starts with: above program zero, at the clearance height. -/
def simulationHead (d : Document R S) (settings : SimulationSettings R) : Head R :=
  Head.start d.material.origin ⟨0, 0, d.material.clearance⟩ settings.toolDiameter

/-- A program run against the stock of a document, which stays carved. -/
def simulate {R : Type} [Analytic R] [Numeral R] (d : Document R S) (program : String)
    (settings : SimulationSettings R) :
    Except (SimulationError R) (SimulationReport R × Document R S) :=
  match d.prepareStock settings with
  | .error e => .error e
  | .ok d =>
    let s := (Simulator.start d.voxels (d.simulationHead settings) d.simulationStep).run program
    .ok (s.report, { d with voxels := s.stock })

end Document

end Toolpath
