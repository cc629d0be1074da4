import Toolpath.Block.Basic
import Toolpath.Document.Machine
import Toolpath.Stock.Field
import Toolpath.Tree.Basic

/-!
# Documents

A document is a machining project: its name and settings, the stock with its voxel field, and the
tree of blocks. A block of a container kind owns exactly one list of children from the moment it
is created; a block of another kind owns none.
-/

namespace Toolpath

instance {R S : Type} : Lockable (Block R S) := ⟨fun b => b.flags.locked⟩

/-- A machining project. -/
structure Document (R S : Type) where
  /-- The name. -/
  name : String
  /-- Notes in free text. -/
  notes : String
  /-- The project number. -/
  number : UInt32
  /-- The machine. -/
  machine : Machine
  /-- The stock. -/
  material : Material R
  /-- The stock as cells. -/
  voxels : VoxelField R
  /-- The blocks. -/
  tree : Tree (Block R S)
  /-- The top-level list. -/
  root : ListId

/-- Why an edit of a document was refused. -/
inductive EditError where
  /-- There is no such block. -/
  | unknownNode
  /-- Blocks of the kind have no children. -/
  | notAContainer (kind : BlockKind)
deriving DecidableEq, Repr

/-- The text of an edit error, where it has one. -/
def EditError.message? : EditError → Option String
  | unknownNode => none
  | notAContainer k => some (k.name ++ " blocks have no children")

namespace Document

variable {R S : Type}

/-- A document without blocks. -/
def new [Scalar R] (name : String) : Document R S :=
  let (root, tree) := (Tree.empty : Tree (Block R S)).newList none
  let material : Material R := Material.standard
  { name, notes := "", number := 0, machine := {}, material
    voxels := VoxelField.solid VoxelField.defaultResolution material.size, tree, root }

/-- A block. -/
def get? (d : Document R S) (id : NodeId) : Option (Block R S) := d.tree.get? id

/-- The payload of a block. -/
def payload? (d : Document R S) (id : NodeId) : Option (Payload R S) := (d.get? id).map (·.payload)

/-- The list of children of a container. -/
def children? (d : Document R S) (id : NodeId) : Option ListId := (d.tree.childLists id).head?

/-- The blocks in a list with everything below them. -/
def forest (d : Document R S) (l : ListId) : List (Branch (Block R S)) :=
  (d.tree.forest l).map (·.map Prod.snd)

/-- The number of blocks alive, in a list or not. -/
def blockCount (d : Document R S) : Nat := d.tree.size

/-- The tree replaced by the result of an operation on it. -/
def withTree (d : Document R S) (t : Tree (Block R S)) : Document R S := { d with tree := t }

/-- A block replaced. -/
def modify (d : Document R S) (id : NodeId) (f : Block R S → Block R S) : Document R S :=
  d.withTree (d.tree.modify id f)

/-! ### Adding and removing -/

/-- A further block outside every list. A container gets its list of children. -/
def create (d : Document R S) (b : Block R S) : NodeId × Document R S :=
  let (id, t) := d.tree.create b
  (id, d.withTree (if b.kind.isContainer then (t.newList (some id)).2 else t))

/-- A further block at the tail of a list. -/
def push (d : Document R S) (l : ListId) (b : Block R S) : NodeId × Document R S :=
  let (id, d) := d.create b
  (id, d.withTree (d.tree.pushBack l id).2)

/-- A further block at the top level. -/
def add (d : Document R S) (b : Block R S) : NodeId × Document R S := d.push d.root b

/-- A further block among the children of a container. -/
def addChild (d : Document R S) (parent : NodeId) (b : Block R S) :
    Except EditError (NodeId × Document R S) :=
  match d.get? parent with
  | none => .error .unknownNode
  | some p =>
    match d.children? parent with
    | none => .error (.notAContainer p.kind)
    | some l => .ok (d.push l b)

/-- A child is added where there is a block to add it to, and that block has a list of children. -/
theorem addChild_eq_ok_iff {d : Document R S} {parent : NodeId} {b : Block R S}
    {r : NodeId × Document R S} :
    d.addChild parent b = .ok r ↔
      (d.get? parent).isSome ∧ ∃ l, d.children? parent = some l ∧ d.push l b = r := by
  unfold addChild
  cases d.get? parent <;> cases d.children? parent <;> simp

/-- A subtree put at the tail of a list. -/
def attach (d : Document R S) (l : ListId) (b : Branch (Block R S)) : NodeId × Document R S :=
  let (id, t) := d.tree.plant b
  (id, d.withTree (t.pushBack l id).2)

/-- Subtrees put at the tail of a list, one after the other, and the names of their tops. -/
def attachAll (d : Document R S) (l : ListId) :
    List (Branch (Block R S)) → List NodeId × Document R S
  | [] => ([], d)
  | b :: rest =>
    let (id, d) := d.attach l b
    let (ids, d) := attachAll d l rest
    (id :: ids, d)

/-- A block removed with everything below it. Refused if it is locked or gone. -/
def remove? (d : Document R S) (id : NodeId) : Option (Block R S × Document R S) :=
  (d.tree.remove? id).map fun (b, t) => (b, d.withTree t)

/-- A subtree copied, the copy put directly behind it. The copies carry nothing of the last
synthesis. -/
def duplicate? (d : Document R S) (id : NodeId) : Option (NodeId × Document R S) :=
  (d.tree.duplicateWith? id Block.fresh).map fun (copy, t) =>
    (copy, d.withTree (t.insertAfter id copy).2)

/-- Every block of the top level destroyed, with everything below. -/
def clear (d : Document R S) : Document R S := d.withTree (d.tree.destroyList d.root)

/-! ### Lengths -/

variable [Scalar R]

/-- The lengths of a block and of everything below it multiplied. -/
def scale [Storage R S] (d : Document R S) (id : NodeId) (k : R) : Document R S :=
  (d.tree.subtree id).foldl (fun d id => d.modify id (·.scale k)) d

/-- The voxel field made anew, and solid, for the size of the stock. -/
def rebuildVoxels (d : Document R S) : Document R S :=
  { d with voxels := VoxelField.solid d.voxels.resolution d.material.size }

/-- The voxel field made anew, and solid, with another resolution. -/
def setResolution (d : Document R S) (resolution : UInt32) : Document R S :=
  { d with voxels := VoxelField.solid resolution d.material.size }

/-- The unit switched and every length of the project converted. -/
def setUnits [Storage R S] (d : Document R S) (units : Units) : Document R S :=
  if d.material.units = units then d
  else
    let factor : R := d.material.units.inches / units.inches
    let d := (d.tree.members d.root).foldl (fun d id => d.scale id factor) d
    let d := { d with material := { d.material.scale factor with units := units } }
    d.rebuildVoxels

/-- Other units keep what scaling keeps and what says nothing of the settings. -/
theorem setUnits_keeps [Storage R S] {P : Document R S → Prop} {d : Document R S}
    (hsettings : ∀ {d e : Document R S}, P d → e.tree = d.tree → e.root = d.root → P e)
    (hscale : ∀ {d : Document R S} (id : NodeId) (k : R), P d → P (d.scale id k)) (h : P d)
    (units : Units) : P (d.setUnits units) := by
  unfold setUnits
  split
  · exact h
  · exact hsettings (List.foldlRecOn _ _ h fun e he id _ => hscale id _ he) rfl rfl

/-- The children of a bolt hole pattern replaced by the circles of its payload. -/
def rebuildBoltHoles {R : Type} [Analytic R] (d : Document R S) (id : NodeId) :
    Except EditError (Document R S) :=
  match d.get? id with
  | none => .error .unknownNode
  | some b =>
    match b.payload with
    | .boltHoles holes =>
      match d.children? id with
      | none => .error (.notAContainer .boltHoles)
      | some l =>
        let cleared := d.withTree (d.tree.destroyList l)
        .ok (holes.circles.foldl (fun d a => (d.push l { payload := .arc a }).2) cleared)
    | p => .error (.notAContainer p.kind)

/-- The circles are made anew where there is a pattern of bolt holes that has a list of children. -/
theorem rebuildBoltHoles_eq_ok_iff {R : Type} [Analytic R] {d e : Document R S} {id : NodeId} :
    d.rebuildBoltHoles id = .ok e ↔
      ∃ b holes l, d.get? id = some b ∧ b.payload = .boltHoles holes ∧ d.children? id = some l ∧
        holes.circles.foldl (fun d a => (d.push l { payload := .arc a }).2)
          (d.withTree (d.tree.destroyList l)) = e := by
  unfold rebuildBoltHoles
  cases hb : d.get? id with
  | none => simp
  | some b =>
    cases hp : b.payload with
    | boltHoles holes => cases hl : d.children? id <;> simp [hp]
    | _ => simp [hp]

/-- What is reported while `n` nodes are visited one after the other: the fraction done after each
one, and one in the end. -/
def progress (n : Nat) : List R :=
  (List.range n).map (fun i => Scalar.ofNat (i + 1) / Scalar.ofNat n) ++ [1]

end Document

end Toolpath
