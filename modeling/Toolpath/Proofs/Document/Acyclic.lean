import Toolpath.Proofs.Document.Regular
import Toolpath.Proofs.Tree.Acyclic

/-!
# Documents without cycles

A document begins without cycles, and what is attached or copied makes none: it is new, so nothing
that was there is below it. Pushing a block is attaching it with the list that it should have.

## Main definitions

* `Document.pushEach` — blocks pushed one after the other

## Main results

* `Document.push_eq_attach` — pushing is attaching a branch
* `Document.acyclic_new`, `Document.acyclic_attach`, `Document.acyclic_duplicate` — what makes no
  cycle
* `Document.acyclic_pushEach` — documents put together block by block
-/

namespace Toolpath

namespace Document

variable {R S : Type} {d : Document R S}

theorem acyclic_new [Scalar R] (name : String) : (new name : Document R S).tree.links.Acyclic := by
  rintro x ⟨levels, y, ⟨n, -, hn, -⟩, -⟩
  rw [node?_new] at hn
  cases hn

theorem acyclic_attach (h : d.tree.links.Acyclic) {l : ListId}
    (hl : l.key < d.tree.siblings.nextKey) (b : Branch (Block R S)) :
    (d.attach l b).2.tree.links.Acyclic := by
  have hplanted := (d.tree.planted_plant b).acyclic d.tree.sound h
  exact (Tree.acyclic_move_iff hplanted (.pushBack l (d.tree.plant b).1)).mpr
    (.inr (d.tree.outward_plant b hl))

theorem later_attach (d : Document R S) (l : ListId) (b : Branch (Block R S)) :
    d.tree.links.Later (d.attach l b).2.tree.links :=
  (d.tree.enlarges_attach l b).later

theorem acyclic_attachAll (h : d.tree.links.Acyclic) {l : ListId}
    (hl : l.key < d.tree.siblings.nextKey) (bs : List (Branch (Block R S))) :
    (d.attachAll l bs).2.tree.links.Acyclic := by
  induction bs generalizing d with
  | nil => exact h
  | cons b bs ih => exact ih (acyclic_attach h hl b) (hl.trans_le (later_attach d l b).next)

theorem acyclic_duplicate (h : d.tree.links.Acyclic) {id copy : NodeId} {e : Document R S}
    (he : d.duplicate? id = some (copy, e)) : e.tree.links.Acyclic := by
  obtain ⟨⟨c, t⟩, ht, hce⟩ := Option.map_eq_some_iff.mp he
  obtain ⟨rfl, rfl⟩ := Prod.mk.inj hce
  obtain ⟨b, hshows, hplanted⟩ := Tree.planted_duplicateWith ht
  exact (Tree.acyclic_move_iff (hplanted.acyclic d.tree.sound h) (.insertAfter id c)).mpr
    (.inr (Tree.outward_planted hplanted hshows.contains))

/-- **Pushing a block is attaching it** with the list that it should have. -/
theorem push_eq_attach (d : Document R S) (l : ListId) (b : Block R S) :
    d.push l b = d.attach l (bare b) := by
  rw [push, create_eq]
  rfl

/-- Blocks pushed one after the other, each into the list beside it. -/
def pushEach (d : Document R S) : List (ListId × Block R S) → Document R S
  | [] => d
  | (l, b) :: rest => (d.push l b).2.pushEach rest

/-- Whether the list is there, or was, each time that a block is pushed. -/
def takesEach (d : Document R S) : List (ListId × Block R S) → Bool
  | [] => true
  | (l, b) :: rest => decide (l.key < d.tree.siblings.nextKey) && (d.push l b).2.takesEach rest

/-- **Blocks pushed into lists that are there make no cycle.** -/
theorem acyclic_pushEach (h : d.tree.links.Acyclic) {pushes : List (ListId × Block R S)}
    (hp : d.takesEach pushes = true) : (d.pushEach pushes).tree.links.Acyclic := by
  induction pushes generalizing d with
  | nil => exact h
  | cons p pushes ih =>
    obtain ⟨hl, hrest⟩ := Bool.and_eq_true_iff.mp hp
    refine ih ?_ hrest
    rw [push_eq_attach]
    exact acyclic_attach h (of_decide_eq_true hl) (bare p.2)

end Document

end Toolpath
