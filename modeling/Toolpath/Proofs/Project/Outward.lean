import Toolpath.Proofs.Document.Acyclic
import Toolpath.Proofs.Document.Loops
import Toolpath.Proofs.Project.Made

/-!
# Documents that are made outward

A document that is made may have cycles: a sketch can be put into its own list. From then on the
sketch is its own parent, and whatever goes up from it, or down, goes on for ever. Every other
operation makes no cycle, so the moves alone decide. A document is *made outward* if it is made and
no move puts a block into a list of its own or of a block below it. In such a document all loops
end.

## Main definitions

* `Document.MadeOutward` — a document is made, and every move is refused or leads outward
* `Document.WalksEnd` — what goes up and down in a document ends
* `Record.writeTo` — the recursion that writes records, with fuel

## Main results

* `Document.MadeOutward.acyclic` — no block is below itself
* `Document.walksEnd` — without cycles all loops end
-/

namespace Toolpath

/-! ### Writing records -/

namespace Record

/-- A block written with everything below it. A block that is gone gives no record. -/
def writeTo (d : Project) : Nat → NodeId → Option (List Chunk)
  | 0, _ => none
  | fuel + 1, id =>
    match d.get? id with
    | none => some []
    | some b =>
      match d.children? id with
      | none => some [.group b.kind.tag (head b)]
      | some l =>
        ((d.tree.members l).mapM fun y => writeTo d fuel y).bind fun records =>
          let count := Leaf.word countTag (UInt32.ofNat (d.tree.members l).length)
          some [.group b.kind.tag (head b ++ count :: records.flatten)]

/-- The record of a block that is there. -/
def written (d : Project) (id : NodeId) : List Chunk :=
  ((d.tree.branch? id).map fun b => chunk (b.map Prod.snd)).toList

/-- The records of the members of a list are those of the blocks in it. -/
theorem flatMap_written (d : Project) (l : ListId) :
    (d.tree.members l).flatMap (written d) = chunks (d.forest l) := by
  rw [chunks_eq_map, Document.forest, Tree.forest, List.map_filterMap, List.map_filterMap,
    List.filterMap_eq_flatMap_toList]
  refine congrArg (List.flatMap · _) (funext fun id => ?_)
  rw [written, Option.map_map]
  rfl

theorem length_forest {d : Project} (h : d.tree.links.Acyclic) (l : ListId) :
    (d.forest l).length = (d.tree.members l).length := by
  rw [Document.forest, List.length_map, Tree.forest, List.filterMap_length_eq_length]
  intro x hx
  obtain ⟨n, hn⟩ := Option.isSome_iff_exists.mp (d.tree.sound.holds.alive l x hx).1
  rw [Tree.branch?_eq (h x), Tree.node?, hn]
  rfl

/-- The record of a block, from the blocks in the lists that it owns. -/
theorem written_of_node {d : Project} (h : d.tree.links.Acyclic) {id : NodeId}
    {n : TreeNode StoredBlock} (hn : d.tree.node? id = some n) :
    written d id =
      [.group n.item.kind.tag (head n.item ++ childChunks (n.lists.map d.forest))] := by
  rw [written, Tree.branch?_eq (h id), hn, Option.map_some, Option.map_some, Branch.map_node,
    chunk, List.map_map]
  rfl

/-- **Writing ends**, with the record of the block and everything below it. -/
theorem answers_writeTo {d : Project} (h : d.tree.links.Acyclic) (id : NodeId) :
    Answers (writeTo d · id) (written d id) := by
  induction id using Tree.downward h with
  | step x ih =>
    cases hn : d.tree.node? x with
    | none =>
      have hget : d.get? x = none := congrArg (Option.map TreeNode.item) hn
      rw [written, Tree.branch?_eq (h x), hn]
      exact (Answers.pure []).step fun fuel => by rw [writeTo, hget]
    | some n =>
      have hget : d.get? x = some n.item := Tree.get?_of_node? hn
      have hchildren : d.children? x = n.lists.head? := by
        rw [Document.children?, Tree.childLists, hn]
        rfl
      rw [written_of_node h hn]
      cases hl : n.lists with
      | nil =>
        rw [hl] at hchildren
        refine (Answers.pure _).step fun fuel => ?_
        rw [writeTo, hget, hchildren, List.map_nil, childChunks, List.append_nil]
        rfl
      | cons l ls =>
        rw [hl] at hchildren
        have hmembers : Answers (fun fuel => (d.tree.members l).mapM fun y => writeTo d fuel y)
            ((d.tree.members l).map (written d)) :=
          Answers.mapM fun y hy => ih y ⟨n, l, hn, hl ▸ List.mem_cons_self, hy⟩
        rw [List.map_cons, childChunks, length_forest h, ← flatMap_written, List.flatMap_def]
        have hrecord := hmembers.bind (k := fun _ records =>
          some [Chunk.group n.item.kind.tag (head n.item ++
            Leaf.word countTag (UInt32.ofNat (d.tree.members l).length) :: records.flatten)])
          (Answers.pure _)
        exact hrecord.step fun fuel => by simp only [writeTo, hget, hchildren, List.head?_cons]

end Record

/-! ### Loops that end -/

namespace Document

/-- What goes up and down in a document ends, and finds what the document tells. -/
structure WalksEnd (d : Project) : Prop where
  /-- Following parents ends, at a block without one. -/
  parents : ∀ id, ∃ levels top, d.tree.links.Descends levels top id ∧ d.tree.parent? top = none
  /-- The search for the tool of a block ends. -/
  tool : ∀ id, Answers (d.searchTool · id) (d.findTool? id)
  /-- The search for the placement of a block ends. -/
  placement : ∀ id, Answers (d.searchPlacement · Placement.identity false id) (d.placement id)
  /-- A block can be scaled with everything below it. -/
  scale : ∀ id k, d.tree.contains id → Answers (scaleTo k · d id) (d.scale id k)
  /-- A block can be copied with everything below it: the copy does not run out of levels. -/
  copy : ∀ id f, Links.Settles (d.tree.links.duplicateWith id f)
  /-- A block can be written with everything below it. -/
  write : ∀ id, Answers (Record.writeTo d · id) (Record.written d id)

/-- **Without cycles all loops end.** -/
theorem walksEnd {d : Project} (h : d.tree.links.Acyclic) : d.WalksEnd where
  parents := Tree.exists_top h
  tool := answers_searchTool h
  placement := answers_searchPlacement h
  scale := fun id k => answers_scaleTo k (h id)
  copy := fun id f => d.tree.sound.settles_duplicateWith (h id) f
  write := Record.answers_writeTo h

/-! ### Moves that lead outward -/

/-- The document comes from a new one by operations of documents, where every move is refused or
leads outward. -/
inductive MadeOutward : Project → Prop where
  /-- A new document. -/
  | new (name : String) : MadeOutward (new name)
  /-- Other settings, another stock or another voxel field. -/
  | settings {d e : Project} (h : MadeOutward d) (ht : e.tree = d.tree) (hr : e.root = d.root) :
    MadeOutward e
  /-- A further block outside every list. -/
  | create {d : Project} (h : MadeOutward d) (b : StoredBlock) : MadeOutward (d.create b).2
  /-- A block moved. -/
  | move {d : Project} (h : MadeOutward d) (m : Move)
    (hm : (d.tree.move m).1 = false ∨ d.tree.Outward m) :
    MadeOutward (d.withTree (d.tree.move m).2)
  /-- A block edited. -/
  | modify {d : Project} (h : MadeOutward d) (id : NodeId) {f : StoredBlock → StoredBlock}
    (hf : ∀ b, (f b).kind = b.kind) : MadeOutward (d.modify id f)
  /-- A block removed with everything below it. -/
  | remove {d e : Project} (h : MadeOutward d) {id : NodeId} {b : StoredBlock}
    (he : d.remove? id = some (b, e)) : MadeOutward e
  /-- The blocks in a list destroyed. -/
  | destroyList {d : Project} (h : MadeOutward d) (l : ListId) :
    MadeOutward (d.withTree (d.tree.destroyList l))
  /-- A block copied with everything below it. -/
  | duplicate {d e : Project} (h : MadeOutward d) {id copy : NodeId}
    (he : d.duplicate? id = some (copy, e)) : MadeOutward e
  /-- Records pasted into a list that was made. -/
  | paste {d : Project} (h : MadeOutward d) {l : ListId} (hl : l.key < d.tree.siblings.nextKey)
    (bytes : Bytes) : MadeOutward (d.paste l bytes).2

theorem MadeOutward.made {d : Project} (h : MadeOutward d) : Made d := by
  induction h with
  | new name => exact .new name
  | settings _ ht hr ih => exact ih.settings ht hr
  | create _ b ih => exact ih.create b
  | move _ m _ ih => exact ih.move m
  | modify _ id hf ih => exact ih.modify id hf
  | remove _ he ih => exact ih.remove he
  | destroyList _ l ih => exact ih.destroyList l
  | duplicate _ he ih => exact ih.duplicate he
  | paste _ _ bytes ih => exact ih.paste _ bytes

/-! ### No cycles -/

/-- **Moves that lead outward make no cycle, and nothing else makes one.** -/
theorem MadeOutward.acyclic {d : Project} (h : MadeOutward d) : d.tree.links.Acyclic := by
  induction h with
  | new name => exact acyclic_new name
  | settings _ ht _ ih => exact ht ▸ ih
  | @create d _ b ih =>
    rw [create_eq]
    exact (d.tree.planted_plant _).acyclic d.tree.sound ih
  | move _ m hm ih => exact (Tree.acyclic_move_iff ih m).mpr hm
  | @modify d _ id f _ ih => exact ih.of_grows (Links.grows_modify d.tree.sound id f)
  | remove _ he ih =>
    obtain ⟨t, rfl, ht⟩ := shrinks_remove he
    exact ih.of_grows ht.grows
  | @destroyList d _ l ih => exact ih.of_grows (shrinks_destroyList d.tree l).grows
  | duplicate _ he ih => exact acyclic_duplicate ih he
  | paste _ hl bytes ih =>
    rw [paste_eq]
    exact acyclic_attachAll ih hl _

/-! ### The other operations -/

variable {d : Project}

/-- A block may be pushed into any list that was made. -/
theorem MadeOutward.push (h : MadeOutward d) {l : ListId} (hl : l.key < d.tree.siblings.nextKey)
    (b : StoredBlock) : MadeOutward (d.push l b).2 := by
  have hout : (d.create b).2.tree.Outward (.pushBack l (d.create b).1) := by
    rw [create_eq]
    exact d.tree.outward_plant (bare b) hl
  exact (h.create b).move (.pushBack l (d.create b).1) (.inr hout)

theorem later_push (d : Project) (l : ListId) (b : StoredBlock) :
    d.tree.links.Later (d.push l b).2.tree.links := by
  rw [push_eq_attach]
  exact later_attach d l (bare b)

theorem made_of_list? {t : Tree StoredBlock} {l : ListId} {r : Siblings} (h : t.list? l = some r) :
    l.key < t.siblings.nextKey :=
  Arena.lt_nextKey_of_get? h

theorem MadeOutward.add (h : MadeOutward d) (b : StoredBlock) : MadeOutward (d.add b).2 := by
  obtain ⟨r, hr, -⟩ := h.made.regular.root
  exact h.push (made_of_list? hr) b

theorem made_of_children? {id : NodeId} {l : ListId} (h : d.children? id = some l) :
    l.key < d.tree.siblings.nextKey := by
  rw [Document.children?, Tree.childLists] at h
  cases hn : d.tree.node? id with
  | none => rw [hn] at h; cases h
  | some n =>
    rw [hn] at h
    obtain ⟨-, r, hr, -⟩ := d.tree.sound.owned.owned hn (List.mem_of_mem_head? h)
    exact made_of_list? hr

theorem MadeOutward.addChild (h : MadeOutward d) {parent id : NodeId} {b : StoredBlock}
    {e : Project} (he : d.addChild parent b = .ok (id, e)) : MadeOutward e := by
  obtain ⟨-, l, hl, hpush⟩ := Document.addChild_eq_ok_iff.mp he
  obtain rfl := (Prod.mk.inj hpush).2
  exact h.push (made_of_children? hl) b

theorem MadeOutward.clear (h : MadeOutward d) : MadeOutward d.clear := h.destroyList d.root

theorem MadeOutward.scale (h : MadeOutward d) (id : NodeId) (k : Double) :
    MadeOutward (d.scale id k) :=
  List.foldlRecOn _ _ h fun _ hd x _ => hd.modify x fun b => Block.kind_scale b k

theorem MadeOutward.rebuildVoxels (h : MadeOutward d) : MadeOutward d.rebuildVoxels :=
  h.settings rfl rfl

theorem MadeOutward.setResolution (h : MadeOutward d) (resolution : UInt32) :
    MadeOutward (d.setResolution resolution) :=
  h.settings rfl rfl

theorem MadeOutward.setUnits (h : MadeOutward d) (units : Units) :
    MadeOutward (d.setUnits units) :=
  setUnits_keeps settings (fun id k hd => hd.scale id k) h units

theorem MadeOutward.pushAll {β : Type} {f : β → StoredBlock} (h : MadeOutward d) {l : ListId}
    (hl : l.key < d.tree.siblings.nextKey) (bs : List β) :
    MadeOutward (bs.foldl (fun d b => (d.push l (f b)).2) d) := by
  induction bs generalizing d with
  | nil => exact h
  | cons b bs ih => exact ih (h.push hl (f b)) (hl.trans_le (later_push d l (f b)).next)

theorem MadeOutward.rebuildBoltHoles (h : MadeOutward d) {id : NodeId} {e : Project}
    (he : d.rebuildBoltHoles id = .ok e) : MadeOutward e := by
  obtain ⟨b, holes, l, -, -, hl, rfl⟩ := Document.rebuildBoltHoles_eq_ok_iff.mp he
  have hmade : l.key < (d.tree.destroyList l).siblings.nextKey :=
    (made_of_children? hl).trans_eq (shrinks_destroyList d.tree l).made.symm
  exact (h.destroyList l).pushAll hmade holes.circles

/-! ### A forest, as long as moves lead outward -/

/-- **In a document that is made outward no block is below itself, and what goes up and down in it
ends.** It stays so exactly under the moves that are refused or lead outward. -/
theorem walksEnd_of_madeOutward (h : MadeOutward d) :
    (∀ id, ¬ d.tree.links.BelowItself id) ∧ d.WalksEnd ∧
      ∀ m, (d.tree.move m).2.links.Acyclic ↔ (d.tree.move m).1 = false ∨ d.tree.Outward m :=
  ⟨h.acyclic, walksEnd h.acyclic, Tree.acyclic_move_iff h.acyclic⟩

/-- A template and a sketch at the top level. -/
def sideBySide : Project :=
  (((Document.new "forest").add { payload := Payload.standard .template }).2.add
    { payload := Payload.standard .sketch }).2

theorem walksEnd_of_madeOutward_sketch_in_template :
    let m : Move := .pushBack ⟨1⟩ ⟨1⟩
    let d : Project := sideBySide.withTree (sideBySide.tree.move m).2
    MadeOutward d ∧ d.tree.parent? ⟨1⟩ = some ⟨0⟩ ∧ (∀ id, ¬ d.tree.links.BelowItself id) ∧
      d.WalksEnd := by
  intro m d
  have hside : MadeOutward sideBySide := ((MadeOutward.new "forest").add _).add _
  have hout : sideBySide.tree.Outward m := by
    intro l o hl ho levels hlevels
    obtain ⟨⟩ : sideBySide.tree.sequences.Target (.pushBack ⟨1⟩ ⟨1⟩) l := hl
    have howner : sideBySide.tree.owner? ⟨1⟩ = some ⟨0⟩ := by decide +kernel
    obtain rfl := Option.some.inj (howner.symm.trans ho)
    -- the sketch has one list, and nothing in it
    cases levels with
    | zero => cases hlevels
    | succ levels =>
      obtain ⟨z, ⟨n, k, hn, hk, hz⟩, -⟩ := hlevels
      have hlists : sideBySide.tree.childLists ⟨1⟩ = n.lists := Tree.childLists_of_node? hn
      have hempty : ∀ k ∈ sideBySide.tree.childLists ⟨1⟩, sideBySide.tree.members k = [] := by
        decide +kernel
      rw [← hlists] at hk
      have hz : z ∈ sideBySide.tree.members k := hz
      rw [hempty k hk] at hz
      cases hz
  have hmade : MadeOutward d := hside.move m (.inr hout)
  obtain ⟨hacyclic, hends, -⟩ := walksEnd_of_madeOutward hmade
  exact ⟨hmade, by decide +kernel, hacyclic, hends⟩

/-- **Not every document that is made is without cycles**: a sketch can be put into its own list. It
is its own parent from then on, and neither the searches nor the writing of its record end. -/
theorem made_not_acyclic :
    let d : Project := ((Document.new "cycle").add { payload := Payload.standard .sketch }).2
    let m : Move := .pushBack ⟨1⟩ ⟨0⟩
    let e : Project := d.withTree (d.tree.move m).2
    Made e ∧ (d.tree.move m).1 = true ∧ e.tree.contains ⟨0⟩ ∧ e.tree.parent? ⟨0⟩ = some ⟨0⟩ ∧
      e.tree.links.BelowItself ⟨0⟩ ∧ ∀ fuel, e.searchTool fuel ⟨0⟩ = none ∧
        (∀ found sided, e.searchPlacement fuel found sided ⟨0⟩ = none) ∧
        Record.writeTo e fuel ⟨0⟩ = none := by
  intro d m e
  have hmade : Made e := ((Made.new "cycle").add _).move m
  have hparent : e.tree.parent? ⟨0⟩ = some ⟨0⟩ := by decide +kernel
  have hfirst : e.tree.prev? ⟨0⟩ = none := by decide +kernel
  have hmembers : e.tree.members ⟨1⟩ = [⟨0⟩] := by decide +kernel
  have hchildren : e.children? ⟨0⟩ = some ⟨1⟩ := by decide +kernel
  obtain ⟨b, hb⟩ : ∃ b, e.get? ⟨0⟩ = some b := Option.isSome_iff_exists.mp (by decide +kernel)
  have hself : e.tree.links.BelowItself ⟨0⟩ := ⟨0, ⟨0⟩, Tree.parent?_eq_some_iff.mp hparent, rfl⟩
  refine ⟨hmade, by decide +kernel, by decide +kernel, hparent, hself, fun fuel => ?_⟩
  induction fuel with
  | zero => exact ⟨rfl, fun _ _ => rfl, rfl⟩
  | succ fuel ih =>
    obtain ⟨htool, hplacement, hwrite⟩ := ih
    refine ⟨?_, fun found sided => ?_, ?_⟩
    · rw [searchTool, hfirst, hparent]
      exact htool
    · rw [searchPlacement, hparent]
      dsimp only
      split
      · exact hplacement _ _
      · rw [htool]
        rfl
      · exact hplacement _ _
    · rw [Record.writeTo, hb, hchildren]
      show (List.mapM (fun y => Record.writeTo e fuel y) (e.tree.members ⟨1⟩)).bind _ = none
      rw [hmembers, List.mapM_cons, hwrite]
      rfl

end Document

end Toolpath
