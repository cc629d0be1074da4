import Toolpath.Proofs.Document.Regular
import Toolpath.Proofs.Project.Harvests
import Toolpath.Proofs.Project.Pastes

/-!
# Documents that are made

A document is *made* if it comes from a new one by operations of documents, in any order and on any
blocks: blocks are created, copied, edited, moved and removed, and records are pasted. The settings,
the stock and the voxel field may be anything. An edit replaces a block by another one of its kind;
no operation of a document changes the kind of a block.

There are few ways to make a document, and the operations that are not among them are put together
from these.

## Main definitions

* `Document.Made` — a document comes from a new one by operations of documents

## Main results

* `Document.Made.regular` — a document that is made is regular
* `Document.Made.addChild`, `Made.setUnits`, … — the other operations
-/

namespace Toolpath

namespace Document

/-- The document comes from a new one by operations of documents. -/
inductive Made : Project → Prop where
  /-- A new document. -/
  | new (name : String) : Made (new name)
  /-- Other settings, another stock or another voxel field. -/
  | settings {d e : Project} (h : Made d) (ht : e.tree = d.tree) (hr : e.root = d.root) : Made e
  /-- A further block outside every list. -/
  | create {d : Project} (h : Made d) (b : StoredBlock) : Made (d.create b).2
  /-- A block moved. -/
  | move {d : Project} (h : Made d) (m : Move) : Made (d.withTree (d.tree.move m).2)
  /-- A block edited. -/
  | modify {d : Project} (h : Made d) (id : NodeId) {f : StoredBlock → StoredBlock}
    (hf : ∀ b, (f b).kind = b.kind) : Made (d.modify id f)
  /-- A block removed with everything below it. -/
  | remove {d e : Project} (h : Made d) {id : NodeId} {b : StoredBlock}
    (he : d.remove? id = some (b, e)) : Made e
  /-- The blocks in a list destroyed. -/
  | destroyList {d : Project} (h : Made d) (l : ListId) : Made (d.withTree (d.tree.destroyList l))
  /-- A block copied with everything below it. -/
  | duplicate {d e : Project} (h : Made d) {id copy : NodeId}
    (he : d.duplicate? id = some (copy, e)) : Made e
  /-- Records pasted. -/
  | paste {d : Project} (h : Made d) (l : ListId) (bytes : Bytes) : Made (d.paste l bytes).2

/-- **A document that is made is regular.** -/
theorem Made.regular {d : Project} (h : Made d) : d.Regular := by
  induction h with
  | new name => exact regular_new name
  | settings _ ht hr ih => exact ih.of_eq ht hr
  | create _ b ih => exact ih.create b
  | move _ m ih => exact ih.move m
  | modify _ id hf ih => exact ih.modify id hf
  | remove _ he ih => exact ih.remove he
  | destroyList _ l ih => exact ih.destroyList l
  | duplicate _ he ih => exact ih.duplicate he
  | paste _ l bytes ih =>
    rw [paste_eq]
    refine ih.attachAll l fun b hb => ?_
    have hyields :=
      Record.yields_readAll (RawChunk.split bytes).broken (RawChunk.split bytes).chunks
    exact (hyields.canonical b hb).imp fun _ _ h => h.1.1

/-! ### The other operations -/

variable {d : Project}

theorem Made.push (h : Made d) (l : ListId) (b : StoredBlock) : Made (d.push l b).2 :=
  (h.create b).move (.pushBack l (d.create b).1)

theorem Made.add (h : Made d) (b : StoredBlock) : Made (d.add b).2 := h.push d.root b

theorem Made.addChild (h : Made d) {parent id : NodeId} {b : StoredBlock} {e : Project}
    (he : d.addChild parent b = .ok (id, e)) : Made e := by
  obtain ⟨-, l, -, hpush⟩ := addChild_eq_ok_iff.mp he
  obtain rfl := (Prod.mk.inj hpush).2
  exact h.push l b

theorem Made.clear (h : Made d) : Made d.clear := h.destroyList d.root

theorem Made.scale (h : Made d) (id : NodeId) (k : Double) : Made (d.scale id k) :=
  List.foldlRecOn _ _ h fun _ hd x _ => hd.modify x fun b => Block.kind_scale b k

theorem Made.rebuildVoxels (h : Made d) : Made d.rebuildVoxels := h.settings rfl rfl

theorem Made.setResolution (h : Made d) (resolution : UInt32) : Made (d.setResolution resolution) :=
  h.settings rfl rfl

theorem Made.setUnits (h : Made d) (units : Units) : Made (d.setUnits units) :=
  setUnits_keeps settings (fun id k hd => hd.scale id k) h units

theorem Made.rebuildBoltHoles (h : Made d) {id : NodeId} {e : Project}
    (he : d.rebuildBoltHoles id = .ok e) : Made e := by
  obtain ⟨b, holes, l, -, -, -, rfl⟩ := rebuildBoltHoles_eq_ok_iff.mp he
  exact List.foldlRecOn _ _ (h.destroyList l) fun _ hd a _ => hd.push l { payload := .arc a }

end Document

end Toolpath
