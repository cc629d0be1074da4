import Toolpath.Document.Basic
import Toolpath.Geometry.Placement

/-!
# What a block inherits

A block cuts with the nearest tool before it: among the siblings that precede it, then among those
that precede its parent, and so on outward. It is placed by the templates around it, the innermost
one first, and compensated for the cutter as the nearest sketch around it says.
-/

namespace Toolpath

/-- The motion of the children of a template. -/
def Template.motion {R : Type} (t : Template R) : Motion R := ⟨t.position, t.rotation⟩

namespace Block

variable {R S : Type}

/-- The motion of the children, if the block is a template. -/
def motion? (b : Block R S) : Option (Motion R) :=
  match b.payload with
  | .template t => some t.motion
  | _ => none

/-- The sketch, if the block is one. -/
def sketch? (b : Block R S) : Option (Sketch R) :=
  match b.payload with
  | .sketch s => some s
  | _ => none

end Block

namespace Document

variable {R S : Type}

/-- The last tool change among blocks. -/
def lastTool? (d : Document R S) (ids : List NodeId) : Option (Tool R) :=
  ids.reverse.findSome? fun id => (d.get? id).bind Block.tool?

/-- The tool a block cuts with. -/
def findTool? (d : Document R S) (id : NodeId) : Option (Tool R) :=
  (id :: d.tree.ancestors id).findSome? fun a => d.lastTool? (d.tree.preceding a)

variable [Analytic R]

/-- The motion that the templates among some blocks compose to, the first applied first. -/
def motionThrough (d : Document R S) (ids : List NodeId) : Motion R :=
  (ids.filterMap fun id => (d.get? id).bind Block.motion?).foldl (fun m outer => outer.after m)
    Motion.identity

/-- The first sketch among some blocks, with its name. -/
def firstSketch? (d : Document R S) (ids : List NodeId) : Option (NodeId × Sketch R) :=
  ids.findSome? fun id => ((d.get? id).bind Block.sketch?).map fun s => (id, s)

/-- The placement of a block. -/
def placement (d : Document R S) (id : NodeId) : Placement R :=
  let around := d.tree.ancestors id
  match d.firstSketch? around with
  | none => ⟨d.motionThrough around, 0, 0⟩
  | some (s, data) =>
    ⟨d.motionThrough around, data.side.sign, ((d.findTool? s).map Tool.radius).getD 0⟩

end Document

end Toolpath
