import Toolpath.Document.Segment
import Toolpath.Proofs.Tree.Relabeling

/-!
# Documents without their free texts

A document carries texts for people: its name and notes, the comments of its blocks and the labels
of its tools. A *mute* document is the document without them, and without what the last synthesis
left on the blocks. Two documents differ in such texts at most if they are the same document when
they are mute.

Where a block stands, what it inherits and what it resolves to does not depend on the texts.

## Main definitions

* `Document.mute` — the document without its free texts

## Main results

* `Document.findTool?_mute`, `Document.placement_mute` — what a block inherits
* `Document.childSegments_mute` — what a container resolves to
-/

namespace Toolpath

variable {R S : Type}

/-- The tool without its label. -/
def Tool.mute (t : Tool R) : Tool R := { t with label := "" }

/-- The payload without the label of its tool, if it is one. -/
def Payload.mute : Payload R S → Payload R S
  | .tool t => .tool t.mute
  | p => p

namespace Block

/-- The block without its comment and its label, and as it was before any synthesis. -/
def mute (b : Block R S) : Block R S :=
  { b with payload := b.payload.mute, comment := "", code := "", status := "" }

/-- The block with another comment and, if it is a tool, another label. -/
def retitle (comment label : String) (b : Block R S) : Block R S :=
  match b.payload with
  | .tool t => { b with comment, payload := .tool { t with label } }
  | _ => { b with comment }

theorem mute_retitle (comment label : String) (b : Block R S) :
    (b.retitle comment label).mute = b.mute := by
  unfold retitle mute
  cases b.payload <;> rfl

@[simp] theorem kind_mute (b : Block R S) : b.mute.kind = b.kind := by
  show b.payload.mute.kind = b.payload.kind
  cases b.payload <;> rfl

@[simp] theorem flags_mute (b : Block R S) : b.mute.flags = b.flags := rfl

theorem tool?_mute (b : Block R S) : b.mute.tool? = b.tool?.map Tool.mute := by
  unfold tool?
  rw [mute]
  cases b.payload <;> rfl

@[simp] theorem motion?_mute (b : Block R S) : b.mute.motion? = b.motion? := by
  unfold motion?
  rw [mute]
  cases b.payload <;> rfl

@[simp] theorem sketch?_mute (b : Block R S) : b.mute.sketch? = b.sketch? := by
  unfold sketch?
  rw [mute]
  cases b.payload <;> rfl

end Block

@[simp] theorem Segment.ofBlock?_mute [Analytic R] (b : Block R S) :
    Segment.ofBlock? b.mute = Segment.ofBlock? b := by
  unfold Segment.ofBlock?
  rw [Block.mute]
  cases b.payload <;> rfl

namespace Document

/-- The document without its free texts. -/
def mute (d : Document R S) : Document R S :=
  { d with name := "", notes := "", tree := d.tree.relabel Block.mute }

variable (d : Document R S)

/-- Mute documents are the same if only texts of a block are changed. -/
theorem mute_modify {f : Block R S → Block R S} (h : ∀ b, (f b).mute = b.mute) (id : NodeId) :
    (d.modify id f).mute = d.mute :=
  congrArg (fun tree => { d with name := "", notes := "", tree })
    (Tree.relabel_modify h d.tree id)

theorem get?_mute (id : NodeId) : d.mute.get? id = (d.get? id).map Block.mute :=
  Tree.get?_relabel Block.mute d.tree id

/-- A property of blocks that texts have no part in. -/
theorem get?_mute_bind {β : Type} {f : Block R S → Option β} (hf : ∀ b, f b.mute = f b)
    (id : NodeId) : (d.mute.get? id).bind f = (d.get? id).bind f := by
  rw [get?_mute]
  cases d.get? id with
  | none => rfl
  | some b => exact hf b

@[simp] theorem children?_mute (id : NodeId) : d.mute.children? id = d.children? id :=
  congrArg List.head? (Tree.childLists_relabel Block.mute d.tree id)

/-! ### What a block inherits -/

/-- The tool a block cuts with in a tree with other blocks, whose tools are those of the blocks with
a function applied. -/
theorem findTool?_relabel {f : Block R S → Block R S} {g : Tool R → Tool R}
    (h : ∀ b, (f b).tool? = b.tool?.map g) (id : NodeId) :
    (d.withTree (d.tree.relabel f)).findTool? id = (d.findTool? id).map g := by
  have hlast (ids : List NodeId) :
      (d.withTree (d.tree.relabel f)).lastTool? ids = (d.lastTool? ids).map g := by
    rw [lastTool?, lastTool?, List.map_findSome?]
    refine congrArg (List.findSome? · ids.reverse) (funext fun id => ?_)
    show ((d.tree.relabel f).get? id).bind Block.tool? = ((d.tree.get? id).bind Block.tool?).map g
    rw [Tree.get?_relabel]
    cases d.tree.get? id with
    | none => rfl
    | some b => exact h b
  have htree : (d.withTree (d.tree.relabel f)).tree = d.tree.relabel f := rfl
  simp only [findTool?, htree, Tree.ancestors_relabel, Tree.preceding_relabel, hlast,
    List.map_findSome?, Function.comp_def]

theorem findTool?_mute (id : NodeId) : d.mute.findTool? id = (d.findTool? id).map Tool.mute :=
  d.findTool?_relabel Block.tool?_mute id

theorem active?_mute (id : NodeId) : d.mute.active? id = (d.active? id).map Block.mute := by
  rw [active?, active?, get?_mute, Option.filter_map]
  rfl

variable [Analytic R]

@[simp] theorem placement_mute (id : NodeId) : d.mute.placement id = d.placement id := by
  have hancestors : d.mute.tree.ancestors id = d.tree.ancestors id :=
    Tree.ancestors_relabel Block.mute d.tree id
  have hmotion (ids : List NodeId) : d.mute.motionThrough ids = d.motionThrough ids := by
    rw [motionThrough, motionThrough, funext (d.get?_mute_bind Block.motion?_mute)]
  have hsketch (ids : List NodeId) : d.mute.firstSketch? ids = d.firstSketch? ids := by
    refine congrArg (List.findSome? · ids) (funext fun a => ?_)
    rw [d.get?_mute_bind Block.sketch?_mute]
  rw [placement, placement, hancestors, hmotion, hsketch]
  cases d.firstSketch? (d.tree.ancestors id) with
  | none => rfl
  | some s =>
    dsimp only
    rw [findTool?_mute, Option.map_map]
    rfl

/-! ### What a block resolves to -/

@[simp] theorem segment?_mute (id : NodeId) : d.mute.segment? id = d.segment? id := by
  rw [segment?, segment?, rawSegment?, rawSegment?, active?_mute, placement_mute, Option.bind_map]
  refine congrArg (Option.map _) (congrArg (Option.bind _) (funext fun b => ?_))
  exact Segment.ofBlock?_mute b

@[simp] theorem childSegments_mute (id : NodeId) :
    d.mute.childSegments id = d.childSegments id := by
  have hmembers : d.mute.tree.members = d.tree.members := Tree.members_relabel Block.mute d.tree
  rw [childSegments, childSegments, children?_mute, hmembers]
  cases d.children? id with
  | none => rfl
  | some l => exact congrArg (List.filterMap · _) (funext d.segment?_mute)

end Document

end Toolpath
