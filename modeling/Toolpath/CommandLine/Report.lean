import Toolpath.Project.Record
import Toolpath.Simulation.Simulator
import Toolpath.Text.Json

/-!
# What is told about projects and simulations

Projects and simulations are described in text for people and in JSON for other programs.
-/

namespace Toolpath

/-- Lines one below the other, each with its line feed. -/
def paragraph (lines : List String) : String := String.join (lines.map (· ++ "\n"))

/-! ### Projects -/

namespace Units

/-- The name of the unit as data. -/
def key : Units → String
  | inch => "inch"
  | millimeter => "millimeter"

/-- The sign of the unit. -/
def sign : Units → String
  | inch => "in"
  | millimeter => "mm"

end Units

/-- The name of a controller as data. -/
def Controller.key : Controller → String
  | linuxCnc => "linuxcnc"
  | turboCnc => "turbocnc"
  | haas => "haas"

/-- What is told about a block. -/
structure BlockSummary where
  /-- The block. -/
  block : StoredBlock
  /-- The number of its children, if it can have any. -/
  children : Option Nat

namespace BlockSummary

/-- The block with number `i` on a line. -/
def line (i : Nat) (s : BlockSummary) : String :=
  "  " ++ toString i ++ ": " ++ s.block.kind.name
    ++ (if s.block.comment.isEmpty then "" else " \"" ++ s.block.comment ++ "\"")
    ++ (match s.children with
      | some n => " [" ++ toString n ++ " children]"
      | none => "")
    ++ (if s.block.flags.suppressed then " (suppressed)" else "")

/-- The block as data. -/
def json (s : BlockSummary) : Json :=
  .ofMembers
    [("kind", .string s.block.kind.name), ("comment", .string s.block.comment),
      ("suppressed", .bool s.block.flags.suppressed), ("locked", .bool s.block.flags.locked),
      ("children", (s.children.map Json.nat).getD .null)]

end BlockSummary

namespace Document

/-- What is told about the blocks of the top level. -/
def blockSummaries (d : Project) : List BlockSummary :=
  (d.tree.members d.root).filterMap fun id =>
    (d.get? id).map fun b => ⟨b, (d.children? id).map fun l => (d.tree.members l).length⟩

/-- The extents of the stock. -/
def stockText (d : Project) : String :=
  String.intercalate " x " (d.material.size.toList.map Decimal.plain.text)

/-- A description of the project in the file at a path. -/
def description (d : Project) (path : String) : String :=
  let blocks := d.blockSummaries
  paragraph
    (["gcam project: " ++ path, "  Name: " ++ d.name, "  Units: " ++ d.material.units.name,
        "  Driver: " ++ d.machine.controller.name, "  Stock: " ++ d.stockText,
        "  Nodes: " ++ toString d.blockCount]
      ++ if blocks.isEmpty then []
        else "" :: "Blocks:" :: blocks.mapIdx fun i s => s.line (i + 1))

/-- Lengths along the axes as data. -/
def axesJson (v : Vec3 Double) : Json := .array (v.toList.map .float)

/-- The project as data. -/
def json (d : Project) : Json :=
  .ofMembers
    [("name", .string d.name), ("notes", .string d.notes),
      ("project_number", .nat d.number.toNat), ("units", .string d.material.units.key),
      ("driver", .string d.machine.controller.key), ("stock", axesJson d.material.size),
      ("origin", axesJson d.material.origin), ("nodes", .nat d.blockCount),
      ("blocks", .array (d.blockSummaries.map BlockSummary.json))]

end Document

/-! ### Simulations -/

namespace SimulationReport

/-- The volume that was cut from stock. -/
def volume (r : SimulationReport Double) (stock : VoxelField Double) : Double :=
  Scalar.ofNat r.removed * stock.pitch.x * stock.pitch.y * stock.pitch.z

/-- A number of at least two digits. -/
def twoDigits (n : Nat) : String := String.ofList (Decimal.padZeros 2 (Decimal.digits n))

/-- A duration in hours, minutes and seconds. -/
def clock (seconds : Nat) : String :=
  toString (seconds / 3600) ++ ":" ++ twoDigits (seconds / 60 % 60) ++ ":" ++
    twoDigits (seconds % 60)

/-- A description of the simulation of the project in the file at a path. -/
def description (r : SimulationReport Double) (d : Project) (path : String) : String :=
  paragraph
    ["Simulated " ++ path,
      "  Machining time: " ++ clock (Scalar.toNat (Scalar.round r.seconds)),
      "  Removed: " ++ toString r.removed ++ " cells (" ++ Decimal.coordinate 4 (r.volume d.voxels)
        ++ " cubic " ++ d.material.units.sign ++ ")",
      "  Remaining: " ++ toString d.voxels.solidCount ++ " of " ++ toString d.voxels.length
        ++ " cells"]

/-- The simulation as data. -/
def json (r : SimulationReport Double) (d : Project) : Json :=
  .ofMembers
    [("elapsed_seconds", .float r.seconds), ("steps", .nat r.steps), ("step", .float r.step),
      ("distance", .float r.distance), ("removed", .nat r.removed), ("feed", .float r.feed),
      ("removed_volume", .float (r.volume d.voxels))]

end SimulationReport

end Toolpath
