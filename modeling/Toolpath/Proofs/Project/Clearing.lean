import Toolpath.Proofs.Document.Patterns
import Toolpath.Proofs.Project.Pastes
import Toolpath.Proofs.Synthesis.Composition
import Toolpath.Proofs.Tree.Enlarging

/-!
# Clearing a document

To clear a document is to destroy the blocks of the top level with everything below them. Whether
this empties it depends on where its blocks are. A block that was made and never put anywhere, that
was taken out of its list, or that was moved below itself is not below the top level, and it is
left, as it was, with everything around it.

Blocks get there by operations on the tree of a document, which is open to its users. So the
documents here come from a new one by any operations on their trees. Operations of documents are
put together from these. None of them destroys the top level or gives it to a block: a list without
an owner stays, and stays without.

## Main definitions

* `Document.Handled` — a document comes from a new one by operations on its tree
* `Document.Clears` — what clearing a document leaves

## Main results

* `Document.Handled.rooted` — the top level is alive, and no block owns it
* `Document.Handled.create`, `Handled.paste`, … — the operations of documents
* `Document.Handled.clears` — what is left is what was not below the top level
-/

namespace Toolpath

/-- The keys alive are as many as the values. -/
theorem Arena.size_eq {β : Type} (a : Arena β) :
    a.size = ((List.range a.nextKey).filter fun k => (a.get? k).isSome).length := by
  have hcells : a.cells.toList = (List.range a.cells.size).map a.get? := by
    refine List.ext_getElem (by simp) fun k hk _ => ?_
    rw [Array.length_toList] at hk
    simp [Arena.get?, hk]
  rw [size, ← Array.countP_toList, hcells, List.countP_map, List.countP_eq_length_filter]
  rfl

namespace Tree

variable {α : Type} {t : Tree α}

/-! ### Nodes alive -/

/-- The nodes alive, in the order in which they were made. -/
def alive (t : Tree α) : List NodeId :=
  ((List.range t.links.nodes.nextKey).map NodeId.mk).filter t.contains

theorem mem_alive_iff {x : NodeId} : x ∈ t.alive ↔ t.contains x := by
  rw [alive, List.mem_filter, and_iff_right_iff_imp]
  intro hx
  obtain ⟨n, hn⟩ := Option.isSome_iff_exists.mp hx
  exact List.mem_map.mpr ⟨x.key, List.mem_range.mpr (Arena.lt_nextKey_of_get? hn), rfl⟩

theorem nodup_alive (t : Tree α) : t.alive.Nodup :=
  (List.nodup_range.map fun _ _ h => congrArg NodeId.key h).filter _

theorem size_eq_length_alive (t : Tree α) : t.size = t.alive.length := by
  rw [alive, List.filter_map, List.length_map]
  exact t.links.nodes.size_eq

/-- **What destroying the nodes of a list leaves.** -/
theorem emptied_destroyList (t : Tree α) (l : ListId) : t.Emptied (t.destroyList l) l := by
  obtain ⟨hshrinks, hloses, hempty⟩ := loses_destroyList t l
  exact emptied_of_loses hshrinks hloses hempty

end Tree

namespace Document

/-! ### Documents with open trees -/

/-- The document comes from a new one by operations on its tree, whatever they do to it. -/
inductive Handled : Project → Prop where
  /-- A new document. -/
  | new (name : String) : Handled (new name)
  /-- Other settings, another stock or another voxel field. -/
  | settings {d e : Project} (h : Handled d) (ht : e.tree = d.tree) (hr : e.root = d.root) :
    Handled e
  /-- A further node outside every list. -/
  | node {d : Project} (h : Handled d) (b : StoredBlock) : Handled (d.withTree (d.tree.create b).2)
  /-- A further list, of a node or of none. -/
  | list {d : Project} (h : Handled d) (owner : Option NodeId) :
    Handled (d.withTree (d.tree.newList owner).2)
  /-- A node moved, exchanged with a sibling, or taken out of its list. -/
  | move {d : Project} (h : Handled d) (m : Move) : Handled (d.withTree (d.tree.move m).2)
  /-- A node edited: locked, unlocked, or given a block of another kind. -/
  | modify {d : Project} (h : Handled d) (id : NodeId) (f : StoredBlock → StoredBlock) :
    Handled (d.modify id f)
  /-- A node removed with everything below it. -/
  | fell {d : Project} (h : Handled d) {id : NodeId} {b : StoredBlock} {t : Tree StoredBlock}
    (ht : d.tree.remove? id = some (b, t)) : Handled (d.withTree t)
  /-- The nodes in a list destroyed. -/
  | destroyList {d : Project} (h : Handled d) (l : ListId) :
    Handled (d.withTree (d.tree.destroyList l))
  /-- A node copied with everything below it. -/
  | copy {d : Project} (h : Handled d) {id copy : NodeId} {f : StoredBlock → StoredBlock}
    {t : Tree StoredBlock} (ht : d.tree.duplicateWith? id f = some (copy, t)) :
    Handled (d.withTree t)

/-- The top level is alive, and no block owns it. -/
def Rooted (d : Project) : Prop := ∃ r, d.tree.list? d.root = some r ∧ r.owner = none

variable {d : Project}

/-- **The top level stays**, whatever is done to the tree, and no block comes to own it. -/
theorem Handled.rooted (h : Handled d) : Rooted d := by
  induction h with
  | new name => exact (regular_new name).root
  | settings _ ht hr ih => rw [Rooted, ht, hr]; exact ih
  | node _ b ih => exact ih
  | @list d _ owner ih =>
    obtain ⟨r, hr, ho⟩ := ih
    have hne : d.root ≠ (d.tree.links.newList owner).1 := by
      intro hfresh
      rw [hfresh, Links.fst_newList] at hr
      cases (Links.list?_fresh d.tree.links).symm.trans hr
    exact ⟨r, (Links.list?_newList _ _ _).trans ((if_neg hne).trans hr), ho⟩
  | @move d _ m ih =>
    obtain ⟨r, hr, ho⟩ := ih
    have howner := (d.tree.relinked_move m).list d.root
    rw [show d.tree.links.list? d.root = some r from hr] at howner
    obtain ⟨q, hq, hqr⟩ := Option.map_eq_some_iff.mp howner
    exact ⟨q, hq, hqr.trans ho⟩
  | modify _ id f ih => exact ih
  | fell _ ht ih =>
    obtain ⟨r, hr, ho⟩ := ih
    exact (Tree.shrinks_of_remove ht).1.free hr ho
  | destroyList _ l ih =>
    obtain ⟨r, hr, ho⟩ := ih
    exact (Tree.loses_destroyList _ l).1.free hr ho
  | copy _ ht ih =>
    obtain ⟨r, hr, ho⟩ := ih
    obtain ⟨b, -, hplanted⟩ := Tree.planted_duplicateWith ht
    exact ⟨r, hplanted.grown.list hr, ho⟩

/-! ### Operations of documents -/

namespace Handled

theorem create (h : Handled d) (b : StoredBlock) : Handled (d.create b).2 := by
  rw [Document.create]
  dsimp only
  split
  · exact (h.node b).list _
  · exact h.node b

theorem push (h : Handled d) (l : ListId) (b : StoredBlock) : Handled (d.push l b).2 :=
  (h.create b).move (.pushBack l (d.create b).1)

theorem add (h : Handled d) (b : StoredBlock) : Handled (d.add b).2 := h.push d.root b

theorem addChild (h : Handled d) {parent id : NodeId} {b : StoredBlock} {e : Project}
    (he : d.addChild parent b = .ok (id, e)) : Handled e := by
  obtain ⟨-, l, -, hpush⟩ := addChild_eq_ok_iff.mp he
  obtain rfl := (Prod.mk.inj hpush).2
  exact h.push l b

theorem remove (h : Handled d) {id : NodeId} {b : StoredBlock} {e : Project}
    (he : d.remove? id = some (b, e)) : Handled e := by
  obtain ⟨⟨c, t⟩, ht, hce⟩ := Option.map_eq_some_iff.mp he
  obtain ⟨-, rfl⟩ := Prod.mk.inj hce
  exact h.fell ht

theorem duplicate (h : Handled d) {id copy : NodeId} {e : Project}
    (he : d.duplicate? id = some (copy, e)) : Handled e := by
  obtain ⟨⟨c, t⟩, ht, hce⟩ := Option.map_eq_some_iff.mp he
  obtain ⟨-, rfl⟩ := Prod.mk.inj hce
  exact (h.copy ht).move (.insertAfter id c)

theorem clear (h : Handled d) : Handled d.clear := h.destroyList d.root

theorem attach (h : Handled d) (l : ListId) (b : Branch StoredBlock) :
    Handled (d.attach l b).2 := by
  have hplanted : Handled (d.withTree (d.tree.plant b).2) :=
    Tree.plant_of_steps (P := fun t => Handled (d.withTree t)) (fun _ a ht => ht.node a)
      (fun _ owner ht => ht.list owner) (fun _ l id ht => ht.move (.pushBack l id)) b h
  exact hplanted.move (.pushBack l (d.tree.plant b).1)

theorem attachAll (h : Handled d) (l : ListId) (bs : List (Branch StoredBlock)) :
    Handled (d.attachAll l bs).2 := by
  induction bs generalizing d with
  | nil => exact h
  | cons b bs ih => exact ih (h.attach l b)

theorem paste (h : Handled d) (l : ListId) (bytes : Bytes) : Handled (d.paste l bytes).2 := by
  rw [paste_eq]
  exact h.attachAll l _

theorem scale (h : Handled d) (id : NodeId) (k : Double) : Handled (d.scale id k) :=
  List.foldlRecOn _ _ h fun _ hd x _ => hd.modify x _

theorem setUnits (h : Handled d) (units : Units) : Handled (d.setUnits units) :=
  setUnits_keeps settings (fun id k hd => hd.scale id k) h units

theorem rebuildBoltHoles (h : Handled d) {id : NodeId} {e : Project}
    (he : d.rebuildBoltHoles id = .ok e) : Handled e := by
  obtain ⟨b, holes, l, -, -, -, rfl⟩ := rebuildBoltHoles_eq_ok_iff.mp he
  exact List.foldlRecOn _ _ (h.destroyList l) fun _ hd a _ => hd.push l { payload := .arc a }

theorem generate (h : Handled d) (ending : LineEnding) (decimals : Option Nat) :
    Handled (d.generate ending decimals).2 := by
  rw [generate_snd]
  have htexts : Handled ((d.texts (d.format decimals) ending).foldl leaveCode d) :=
    List.foldlRecOn _ _ h fun _ hd c _ => hd.modify c.1 _
  exact List.foldlRecOn _ _ htexts fun _ hd v _ => hd.modify v.1 _

end Handled

/-! ### Clearing -/

/-- What clearing the document leaves. -/
structure Clears (d : Project) : Prop where
  /-- The top level is the same list. It is alive, empty and in order. -/
  root : d.clear.root = d.root ∧ (d.clear.tree.list? d.root).isSome ∧
    d.clear.tree.members d.root = [] ∧ d.clear.tree.validate d.root = true
  /-- What is left is what was not within the top level, -/
  contains : ∀ x, d.clear.tree.contains x ↔ d.tree.contains x ∧ ¬ d.tree.Within d.root x
  /-- as it was. -/
  node : ∀ x, d.clear.tree.contains x → d.clear.tree.node? x = d.tree.node? x
  /-- So many blocks are counted. -/
  count : ∃ left : List NodeId, left.Nodup ∧
    (∀ x, x ∈ left ↔ d.tree.contains x ∧ ¬ d.tree.Within d.root x) ∧
    d.clear.blockCount = left.length
  /-- Nothing is left, and no block is alive that ever was, exactly if every block was within the
  top level. -/
  empties : (d.clear.blockCount = 0 ∧ ∀ x, d.clear.tree.contains x = false) ↔
    ∀ x, d.tree.contains x → d.tree.Within d.root x

/-- **Clearing a document** leaves the blocks that are not within the top level, and no others. -/
theorem Handled.clears (h : Handled d) : d.Clears := by
  have hemptied : d.tree.Emptied d.clear.tree d.root := d.tree.emptied_destroyList d.root
  obtain ⟨r, hr, ho⟩ := h.clear.rooted
  have halive : (d.clear.tree.list? d.root).isSome := Option.isSome_iff_exists.mpr ⟨r, hr⟩
  have hcount : d.clear.blockCount = d.clear.tree.alive.length :=
    d.clear.tree.size_eq_length_alive
  constructor
  case root =>
    exact ⟨rfl, halive, hemptied.members, d.clear.tree.sound.holds.validate_eq_true halive⟩
  case contains => exact hemptied.contains
  case node => exact hemptied.node
  case count =>
    refine ⟨d.clear.tree.alive, d.clear.tree.nodup_alive, fun x => ?_, hcount⟩
    rw [Tree.mem_alive_iff, hemptied.contains]
  case empties =>
    constructor
    · rintro ⟨-, hgone⟩ x hx
      by_contra hout
      exact Bool.false_ne_true ((hgone x).symm.trans ((hemptied.contains x).mpr ⟨hx, hout⟩))
    · intro hwithin
      have hgone (x : NodeId) : ¬ d.clear.tree.contains x := by
        rw [hemptied.contains]
        exact fun hx => hx.2 (hwithin x hx.1)
      have hnone : d.clear.tree.alive = [] :=
        List.eq_nil_iff_forall_not_mem.mpr fun x hx => hgone x (Tree.mem_alive_iff.mp hx)
      exact ⟨by rw [hcount, hnone, List.length_nil], fun x => Bool.eq_false_iff.mpr (hgone x)⟩

/-- A sketch with a line in it, and a template with a point in it that was taken out of the top
level. -/
def unhooked : Project :=
  let (sketch, d) := (new "unhooked" : Project).add { payload := Payload.standard .sketch }
  let d := (d.push ((d.children? sketch).getD d.root) { payload := Payload.standard .line }).2
  let (template, d) := d.add { payload := Payload.standard .template }
  let d := (d.push ((d.children? template).getD d.root) { payload := Payload.standard .point }).2
  d.withTree (d.tree.move (.splice template)).2

theorem clears_unhooked : Handled unhooked ∧ unhooked.Clears ∧
    (unhooked.blockCount, unhooked.clear.blockCount) = (4, 2) := by
  have h : Handled unhooked :=
    (((((Handled.new "unhooked").add _).push _ _).add _).push _ _).move (.splice _)
  exact ⟨h, h.clears, by decide +kernel⟩

/-- A point that was made and never put anywhere. -/
def loose : Project := ((new "loose" : Project).create { payload := Payload.standard .point }).2

/-- Clearing the document leaves the point. -/
theorem clear_leaves_loose : Handled loose ∧ loose.tree.contains ⟨0⟩ = true ∧
    ¬ (loose.clear.blockCount = 0 ∧ ∀ x, loose.clear.tree.contains x = false) := by
  have hleft : loose.clear.tree.contains ⟨0⟩ = true := by decide +kernel
  refine ⟨(Handled.new "loose").create _, by decide +kernel, ?_⟩
  rintro ⟨-, hgone⟩
  exact Bool.false_ne_true ((hgone ⟨0⟩).symm.trans hleft)

end Document

end Toolpath
