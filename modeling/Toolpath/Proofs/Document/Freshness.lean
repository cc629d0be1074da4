import Toolpath.Proofs.Document.Muting
import Toolpath.Proofs.Tree.Pruning

/-!
# Documents before any synthesis

A synthesis leaves program text and statuses on blocks. A *fresh* document is the document without
them. Where a block stands, what it inherits and what it resolves to is the same in a fresh
document: a mute document is fresh as well, so most of this is known from mute documents, the tool
excepted, which loses its label there.

A block *bears* a property if it has it or is gone. A change of some blocks, one after the other,
leaves a property on a block if one of the changes brings it about and none takes it away.

## Main definitions

* `Document.fresh` — the document as it was before any synthesis
* `Document.Bears` — a block has a property, or it is gone

## Main results

* `Document.findTool?_fresh`, `Document.placement_fresh` — what a block inherits
* `Document.childSegments_fresh` — what a container resolves to
* `Document.bears_foldl` — what a sequence of changes leaves on a block
-/

namespace Toolpath

variable {R S : Type}

namespace Block

@[simp] theorem flags_fresh (b : Block R S) : b.fresh.flags = b.flags := rfl

end Block

namespace Document

/-- The document as it was before any synthesis. -/
def fresh (d : Document R S) : Document R S := { d with tree := d.tree.relabel Block.fresh }

variable {d e : Document R S}

theorem members_of_fresh_eq (h : e.fresh = d.fresh) : e.tree.members = d.tree.members := by
  rw [← Tree.members_relabel Block.fresh e.tree, ← Tree.members_relabel Block.fresh d.tree]
  exact congrArg (fun d => d.tree.members) h

theorem root_of_fresh_eq (h : e.fresh = d.fresh) : e.root = d.root :=
  congrArg (fun d => d.root) h

variable (d)

/-- Fresh documents are the same if only what a synthesis leaves on a block is changed. -/
theorem fresh_modify {f : Block R S → Block R S} (h : ∀ b, (f b).fresh = b.fresh) (id : NodeId) :
    (d.modify id f).fresh = d.fresh :=
  congrArg (fun tree => { d with tree }) (Tree.relabel_modify h d.tree id)

theorem mute_fresh : d.fresh.mute = d.mute :=
  congrArg (fun tree => { d with name := "", notes := "", tree })
    (Tree.relabel_relabel Block.fresh d.tree Block.mute)

/-! ### What changes leave on blocks -/

section Bears

variable {P : Block R S → Prop} {f : Block R S → Block R S} {id x : NodeId}

/-- A block has a property, or it is gone. -/
def Bears (d : Document R S) (id : NodeId) (P : Block R S → Prop) : Prop :=
  ∀ b, d.get? id = some b → P b

theorem bears_modify (h : ∀ b, P (f b)) : (d.modify id f).Bears id P := by
  intro b hb
  have hget : (d.modify id f).get? id = (d.get? id).map f := Tree.get?_modify_self d.tree id f
  obtain ⟨a, -, rfl⟩ := Option.map_eq_some_iff.mp (hget.symm.trans hb)
  exact h a

variable {d}

theorem Bears.modify (hd : d.Bears id P) (h : x = id → ∀ b, P b → P (f b)) :
    (d.modify x f).Bears id P := by
  intro b hb
  by_cases hx : x = id
  · subst hx
    have hget : (d.modify x f).get? x = (d.get? x).map f := Tree.get?_modify_self d.tree x f
    obtain ⟨a, ha, rfl⟩ := Option.map_eq_some_iff.mp (hget.symm.trans hb)
    exact h rfl a (hd a ha)
  · have hget : (d.modify x f).get? id = d.get? id :=
      Tree.get?_modify_of_ne d.tree x f (Ne.symm hx)
    exact hd b (hget.symm.trans hb)

/-- A change that leaves the block as it is. -/
theorem modify_eq_self (h : d.Bears id fun b => f b = b) : d.modify id f = d :=
  congrArg (fun tree => { d with tree }) (Tree.modify_eq_self d.tree id f h)

/-- A property that no change takes away. -/
theorem Bears.foldl {α : Type} {change : Document R S → α → Document R S} {as : List α}
    (hd : d.Bears id P)
    (hkeep : ∀ a ∈ as, ∀ e : Document R S, e.Bears id P → (change e a).Bears id P) :
    (as.foldl change d).Bears id P :=
  List.foldlRecOn as change hd fun e he a ha => hkeep a ha e he

/-- A property that one change brings about and none takes away. -/
theorem bears_foldl {α : Type} {change : Document R S → α → Document R S} {as : List α} {a : α}
    (ha : a ∈ as) (hmake : ∀ e, (change e a).Bears id P)
    (hkeep : ∀ c ∈ as, ∀ e : Document R S, e.Bears id P → (change e c).Bears id P)
    (d : Document R S) : (as.foldl change d).Bears id P := by
  obtain ⟨before, behind, rfl⟩ := List.append_of_mem ha
  rw [List.foldl_append, List.foldl_cons]
  exact (hmake _).foldl fun c hc =>
    hkeep c (List.mem_append_right _ (List.mem_cons_of_mem _ hc))

end Bears

/-! ### What a block inherits and resolves to -/

theorem findTool?_fresh (id : NodeId) : d.fresh.findTool? id = d.findTool? id := by
  have htool (b : Block R S) : b.fresh.tool? = b.tool?.map fun t => t := Option.map_id'.symm
  exact (d.findTool?_relabel htool id).trans Option.map_id'

variable [Analytic R]

theorem placement_fresh (id : NodeId) : d.fresh.placement id = d.placement id := by
  rw [← placement_mute, mute_fresh, placement_mute]

theorem segment?_fresh (id : NodeId) : d.fresh.segment? id = d.segment? id := by
  rw [← segment?_mute, mute_fresh, segment?_mute]

theorem childSegments_fresh (id : NodeId) : d.fresh.childSegments id = d.childSegments id := by
  rw [← childSegments_mute, mute_fresh, childSegments_mute]

end Document

end Toolpath
