import Toolpath.Document.Basic
import Toolpath.Proofs.Tree.Copies
import Toolpath.Proofs.Tree.Sequences

/-!
# Regular documents

A container has one list of children and another block has none. Nothing in a tree enforces this; it
is a property of the operations of documents, which give a container its list at the moment it is
made, never give another list to a block, and never change the kind of a block.

The top level belongs to no block. So whatever is moved below itself is gone from the top level, and
what the document shows there is all that is below it.

## Main definitions

* `Block.Shaped` — a block has the lists that its kind asks for
* `Document.Regular` — every block does, and the top level has no owner

## Main results

* `Document.Regular.forest_shows` — the forest of a regular document is what its top level shows
* `Document.Regular.create`, `Regular.move`, … — the operations keep documents regular
-/

namespace Toolpath

/-- A container has one list and another block has none. -/
def Block.Shaped {R S : Type} (b : Block R S) (lists : Nat) : Prop :=
  lists = if b.kind.isContainer then 1 else 0

theorem Block.Shaped.of_kind {R S : Type} {b c : Block R S} {lists : Nat} (h : b.Shaped lists)
    (hkind : c.kind = b.kind) : c.Shaped lists := by
  rw [Shaped, hkind]
  exact h

theorem Block.Shaped.lists {R S β : Type} {b : Block R S} {ls : List β} (h : b.Shaped ls.length) :
    (b.kind.isContainer = false ∧ ls = []) ∨ (b.kind.isContainer = true ∧ ∃ l, ls = [l]) := by
  unfold Shaped at h
  cases hb : b.kind.isContainer with
  | false =>
    rw [hb] at h
    exact .inl ⟨rfl, List.length_eq_zero_iff.mp h⟩
  | true =>
    rw [hb] at h
    exact .inr ⟨rfl, List.length_eq_one_iff.mp h⟩

namespace Document

variable {R S : Type}

/-- Every block has the lists that its kind asks for, and the top level has no owner. -/
structure Regular (d : Document R S) : Prop where
  /-- Every block has its lists. -/
  shaped : ∀ x n, d.tree.links.node? x = some n → n.item.Shaped n.lists.length
  /-- The top level is alive and without an owner. -/
  root : ∃ r, d.tree.links.list? d.root = some r ∧ r.owner = none

variable {d : Document R S}

theorem contains_of_get? {x : NodeId} {b : Block R S} (hb : d.get? x = some b) :
    d.tree.links.contains x := by
  obtain ⟨n, hn, -⟩ := Option.map_eq_some_iff.mp hb
  exact Option.isSome_iff_exists.mpr ⟨n, hn⟩

/-- The settings of a document have no part in its being regular. -/
theorem Regular.of_eq {e : Document R S} (h : d.Regular) (ht : e.tree = d.tree)
    (hr : e.root = d.root) : e.Regular := by
  obtain ⟨hshaped, hroot⟩ := h
  exact ⟨ht ▸ hshaped, ht ▸ hr ▸ hroot⟩

theorem node?_new [Scalar R] (name : String) (x : NodeId) :
    (new name : Document R S).tree.links.node? x = none :=
  (Links.node?_newList _ _ _).trans (congrArg (Option.map _) (Arena.get?_empty _))

theorem regular_new [Scalar R] (name : String) : (new name : Document R S).Regular where
  shaped := fun x n hn => by
    rw [node?_new] at hn
    cases hn
  root := ⟨{}, (Links.list?_newList _ _ _).trans (if_pos rfl), rfl⟩

/-- **What a regular document shows at the top level is what is there**, and every block of it has
its lists. -/
theorem Regular.forest_shows (h : d.Regular) :
    List.Forall₂ d.tree.links.Shows (d.tree.members d.root) (d.forest d.root) ∧
      ∀ b ∈ d.forest d.root, b.Every Block.Shaped := by
  obtain ⟨r, hr, ho⟩ := h.root
  have hshows : List.Forall₂ d.tree.links.Shows (d.tree.members d.root) (d.forest d.root) :=
    Tree.forest_shows (by rw [Tree.owner?, Tree.list?, hr]; exact ho)
  refine ⟨hshows, fun b hb => ?_⟩
  obtain ⟨x, -, hx⟩ := exists_left_of_forall₂ hshows hb
  exact hx.every h.shaped

/-! ### Making and editing blocks -/

/-- Branches in the right shape keep a document regular. -/
theorem Regular.of_planted (h : d.Regular) {t : Tree (Block R S)} {top : NodeId}
    {b : Branch (Block R S)} (ht : d.tree.links.Planted top b t.links) (hb : b.Every Block.Shaped) :
    (d.withTree t).Regular where
  shaped := ht.each h.shaped hb
  root := by
    obtain ⟨r, hr, ho⟩ := h.root
    exact ⟨r, ht.grown.list hr, ho⟩

/-- A block with the lists that it should have, and nothing in them. -/
def bare (b : Block R S) : Branch (Block R S) := .node b (if b.kind.isContainer then [[]] else [])

theorem every_bare (b : Block R S) : (bare b).Every Block.Shaped := by
  rw [bare, Branch.every_node_iff, Block.Shaped]
  cases b.kind.isContainer <;> simp

/-- A block is made by planting it. -/
theorem create_eq (d : Document R S) (b : Block R S) :
    d.create b = ((d.tree.plant (bare b)).1, d.withTree (d.tree.plant (bare b)).2) := by
  rw [Document.create, bare]
  cases b.kind.isContainer <;> rfl

/-- A block that is made has the lists that it should have. -/
theorem Regular.create (h : d.Regular) (b : Block R S) : (d.create b).2.Regular := by
  rw [create_eq]
  exact h.of_planted (d.tree.planted_plant _) (every_bare b)

theorem Regular.modify (h : d.Regular) (id : NodeId) {f : Block R S → Block R S}
    (hf : ∀ b, (f b).kind = b.kind) : (d.modify id f).Regular where
  shaped := fun x n hn => by
    obtain ⟨m, hm, rfl⟩ := Option.map_eq_some_iff.mp
      ((Links.node?_withNode _ _ _ x).symm.trans hn)
    split
    · exact (h.shaped x m hm).of_kind (hf _)
    · exact h.shaped x m hm
  root := h.root

/-! ### Moving blocks -/

theorem Regular.of_simulates (h : d.Regular) {m : Move} {r : Bool × Tree (Block R S)}
    (hr : d.tree.Simulates m r) : (d.withTree r.2).Regular where
  shaped := fun x n (hn : r.2.links.node? x = some n) => by
    have hitem : r.2.get? x = some n.item := Tree.get?_of_node? hn
    have hlists : r.2.childLists x = n.lists := Tree.childLists_of_node? hn
    rw [hr.item x] at hitem
    obtain ⟨m, hm, hmn⟩ := Option.map_eq_some_iff.mp hitem
    have hlists' : d.tree.childLists x = m.lists := Tree.childLists_of_node? hm
    rw [← hlists, hr.childLists x, hlists', ← hmn]
    exact h.shaped x m hm
  root := by
    obtain ⟨q, hq, ho⟩ := h.root
    have halive : (r.2.list? d.root).isSome := by rw [hr.list, Tree.list?, hq]; rfl
    obtain ⟨p, hp⟩ := Option.isSome_iff_exists.mp halive
    have howner : r.2.owner? d.root = p.owner := by rw [Tree.owner?, hp]; rfl
    have howner' : d.tree.owner? d.root = q.owner := by rw [Tree.owner?, Tree.list?, hq]; rfl
    exact ⟨p, hp, by rw [← howner, hr.owner, howner', ho]⟩

theorem Regular.move (h : d.Regular) (m : Move) : (d.withTree (d.tree.move m).2).Regular := by
  cases m with
  | insert l id => exact h.of_simulates (d.tree.simulates_insert l id)
  | pushBack l id => exact h.of_simulates (d.tree.simulates_pushBack l id)
  | insertAfter anchor id => exact h.of_simulates (d.tree.simulates_insertAfter anchor id)
  | splice id => exact h.of_simulates (d.tree.simulates_splice id)
  | towardHead id => exact h.of_simulates (d.tree.simulates_moveTowardHead id)
  | towardTail id => exact h.of_simulates (d.tree.simulates_moveTowardTail id)

/-! ### Destroying blocks -/

theorem Regular.of_shrinks (h : d.Regular) {t : Tree (Block R S)}
    (ht : d.tree.links.Shrinks t.links) : (d.withTree t).Regular where
  shaped := fun x n hn => by
    obtain ⟨m, hm, hitem, hlists⟩ := ht.node hn
    exact hitem ▸ hlists ▸ h.shaped x m hm
  root := by
    obtain ⟨r, hr, ho⟩ := h.root
    exact ht.free hr ho

theorem shrinks_destroyList (t : Tree (Block R S)) (l : ListId) :
    t.links.Shrinks (t.destroyList l).links := by
  obtain ⟨s, hs, -, hshrinks, -⟩ := t.sound.destroyList l
  have hlinks : (t.destroyList l).links = s := (Tree.settle_eq (b := ()) _ (by rw [hs]; rfl)).2
  exact hlinks ▸ hshrinks

theorem shrinks_remove {id : NodeId} {b : Block R S} {e : Document R S}
    (he : d.remove? id = some (b, e)) : ∃ t, e = d.withTree t ∧ d.tree.links.Shrinks t.links := by
  obtain ⟨s, hs, -, hshrinks, -⟩ := d.tree.sound.remove id
  obtain ⟨-, hlinks⟩ := Tree.settle_eq (d.tree.sound.settles_remove id) hs
  obtain ⟨⟨c, t⟩, ht, hce⟩ := Option.map_eq_some_iff.mp he
  obtain ⟨-, rfl⟩ := Prod.mk.inj hce
  obtain ⟨_, -, hct⟩ := Option.map_eq_some_iff.mp ht
  obtain ⟨-, rfl⟩ := Prod.mk.inj hct
  exact ⟨_, rfl, hlinks ▸ hshrinks⟩

theorem Regular.destroyList (h : d.Regular) (l : ListId) :
    (d.withTree (d.tree.destroyList l)).Regular :=
  h.of_shrinks (shrinks_destroyList d.tree l)

theorem Regular.remove (h : d.Regular) {id : NodeId} {b : Block R S} {e : Document R S}
    (he : d.remove? id = some (b, e)) : e.Regular := by
  obtain ⟨t, rfl, ht⟩ := shrinks_remove he
  exact h.of_shrinks ht

/-! ### Copying blocks -/

theorem Regular.duplicate (h : d.Regular) {id copy : NodeId} {e : Document R S}
    (he : d.duplicate? id = some (copy, e)) : e.Regular := by
  obtain ⟨⟨c, t⟩, ht, hce⟩ := Option.map_eq_some_iff.mp he
  obtain ⟨rfl, rfl⟩ := Prod.mk.inj hce
  obtain ⟨b, hshows, hplanted⟩ := Tree.planted_duplicateWith ht
  have hb : (b.map Block.fresh).Every Block.Shaped :=
    Branch.Every.map ((hshows.every h.shaped).imp fun a n ha => ha.of_kind (Block.kind_fresh a))
  exact (h.of_planted hplanted hb).move (.insertAfter id c)

theorem Regular.attach (h : d.Regular) (l : ListId) {b : Branch (Block R S)}
    (hb : b.Every Block.Shaped) : (d.attach l b).2.Regular :=
  (h.of_planted (d.tree.planted_plant b) hb).move (.pushBack l (d.tree.plant b).1)

theorem Regular.attachAll (h : d.Regular) (l : ListId) {bs : List (Branch (Block R S))}
    (hbs : ∀ b ∈ bs, b.Every Block.Shaped) : (d.attachAll l bs).2.Regular := by
  induction bs generalizing d with
  | nil => exact h
  | cons b bs ih =>
    exact ih (h.attach l (hbs b List.mem_cons_self)) fun b hb => hbs b (List.mem_cons_of_mem _ hb)

end Document

end Toolpath
