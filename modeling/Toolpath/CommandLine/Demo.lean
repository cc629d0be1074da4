import Toolpath.Project.Record

/-!
# The demonstration project

A plate with a profiled square, a circle of bolt holes and a row of drilled holes, in inches. It
is given as a forest, with the bolt holes already spread out over their circle.
-/

namespace Toolpath

namespace Demo

/-- The cutter. -/
def cutter : StoredBlock where
  payload := .tool { (Tool.standard : Tool Double) with feed := 12 }
  comment := "1/8 end mill"

/-- The corners of the outline, counter-clockwise. -/
def corners : List (Vec2 Double) := [⟨0.5, 0.5⟩, ⟨3.5, 0.5⟩, ⟨3.5, 3.5⟩, ⟨0.5, 3.5⟩]

/-- The lines that close a polygon around its corners. -/
def closedThrough (ps : List (Vec2 Double)) : List (Branch StoredBlock) :=
  (ps.zip ps.rotateLeft).map fun (a, b) => .node { payload := .line ⟨a, b⟩ } []

/-- The outline, cut on the outside. -/
def outline : Branch StoredBlock :=
  .node { payload := .sketch ⟨0.2, 0.1, .right⟩, comment := "outline" } [closedThrough corners]

/-- The pattern of bolt holes. -/
def boltPattern : BoltHoles Double :=
  { (BoltHoles.standard : BoltHoles Double) with
    position := ⟨2, 2⟩, count := 6, patternRadius := 0.75 }

/-- The bolt holes, each a circle. -/
def bolts : Branch StoredBlock :=
  .node { payload := .boltHoles boltPattern, comment := "bolt circle" }
    [boltPattern.circles.map fun a => .node { payload := .arc a } []]

/-- The row of drilled holes. -/
def drills : Branch StoredBlock :=
  .node { payload := .standard .drillHoles, comment := "mounting holes" }
    [[3, 1, 2].map fun x => .node { payload := .point ⟨x, 3.2⟩ } []]

/-- The blocks of the project. -/
def forest : List (Branch StoredBlock) :=
  [.node { payload := .standard .header } [], .node cutter [], outline, bolts, drills,
    .node { payload := .footer ⟨some Vec2.zero⟩ } []]

/-- The project under a name, for a controller and in a unit. -/
def project (name : String) (controller : Controller) (units : Units) : Project :=
  let empty : Project := Document.new name
  let d : Project := { empty with machine := { empty.machine with controller := controller } }
  (d.attachAll d.root forest).2.setUnits units

end Demo

end Toolpath
