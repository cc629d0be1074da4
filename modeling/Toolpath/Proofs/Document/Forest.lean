import Toolpath.Document.Basic
import Toolpath.Proofs.Tree.Attaching

/-!
# Documents that hold a forest

A document that is put together from branches, one after the other at the end of the top level,
holds these branches and no other block: whatever is alive is below a member of the top level, as
deep as it is in its branch.

## Main definitions

* `Document.HoldsForest` — the blocks of a document are those of a forest

## Main results

* `Document.HoldsForest.attachAll` — branches that are attached are held
* `Document.HoldsForest.forest_root` — what is held is what the document shows
* `Document.HoldsForest.exists_branch` — where a block of the document is in the forest
-/

namespace Toolpath

namespace Document

variable {R S : Type}

/-- The blocks of a document are those of a forest at the top level. -/
structure HoldsForest (d : Document R S) (bs : List (Branch (Block R S))) : Prop where
  /-- The top level is alive and without an owner. -/
  root : ∃ r, d.tree.links.list? d.root = some r ∧ r.owner = none
  /-- Its members show the branches. -/
  shows : List.Forall₂ d.tree.links.Shows (d.tree.members d.root) bs
  /-- Every block is below one of them. -/
  covered : ∀ x, d.tree.contains x →
    ∃ top ∈ d.tree.members d.root, ∃ levels, d.tree.links.Descends levels top x
  /-- No other block was ever made. -/
  counted : d.tree.links.nodes.nextKey = Branch.sizeOfForest bs

theorem holdsForest_new [Scalar R] (name : String) : (new name : Document R S).HoldsForest [] where
  root := ⟨{}, (Links.list?_newList _ _ _).trans (if_pos rfl), rfl⟩
  shows := .nil
  covered := fun x hx => by
    have hnone : (new name : Document R S).tree.links.node? x = none :=
      (Links.node?_newList _ _ _).trans (congrArg (Option.map _) (Arena.get?_empty _))
    rw [Tree.contains, Links.contains, hnone] at hx
    cases hx
  counted := rfl

/-! ### Attaching -/

variable {d : Document R S} {bs : List (Branch (Block R S))}

/-- The settings of a document have no part in what it holds. -/
theorem HoldsForest.of_eq {e : Document R S} (h : d.HoldsForest bs) (ht : e.tree = d.tree)
    (hr : e.root = d.root) : e.HoldsForest bs := by
  obtain ⟨hroot, hshows, hcovered, hcounted⟩ := h
  exact ⟨ht ▸ hr ▸ hroot, ht ▸ hr ▸ hshows, ht ▸ hr ▸ hcovered, ht ▸ hcounted⟩

/-- A branch at the end of the top level. -/
theorem HoldsForest.attach (h : d.HoldsForest bs) (b : Branch (Block R S)) :
    (d.attach d.root b).2.HoldsForest (bs ++ [b]) := by
  have hp := d.tree.planted_plant b
  obtain ⟨r, hr, ho⟩ := h.root
  have hr₁ := hp.grown.list hr
  obtain ⟨s, hs, harr⟩ := hp.sound.pushBack_loose (by rw [hr₁]; rfl) hp.alive hp.loose
  have hlinks : (d.attach d.root b).2.tree.links = s := Tree.pushBack_links hs
  have hkeeps : (d.tree.plant b).2.links.Keeps s none := ho ▸ harr.keeps hp.sound hr₁
  have hgrown := hp.grown.members (show (d.tree.links.list? d.root).isSome by rw [hr]; rfl)
  have hmembers : s.members d.root = d.tree.members d.root ++ [(d.tree.plant b).1] := by
    rw [harr.members, Links.put_self, hgrown]
    rfl
  have hroot : (d.attach d.root b).2.tree.members (d.attach d.root b).2.root =
      d.tree.members d.root ++ [(d.tree.plant b).1] :=
    (congrArg (fun s => Links.members s d.root) hlinks).trans hmembers
  refine ⟨?_, ?_, fun x hx => ?_, ?_⟩
  · rw [hlinks]
    obtain ⟨q, hq, hqo⟩ := harr.relinked.symm.list?_owner hr₁
    exact ⟨q, hq, hqo.trans ho⟩
  · rw [hroot, hlinks, forall₂_concat_iff]
    refine ⟨h.shows.imp fun x b hb => ?_, hp.shows.keep hp.sound hkeeps (by simp) (by simp)⟩
    have hb₁ := hb.keep d.tree.sound (hp.grown.keeps d.tree.sound) (by simp) (by simp)
    exact hb₁.keep hp.sound hkeeps (by simp) (by simp)
  · rw [Tree.contains, hlinks, harr.relinked.contains] at hx
    rw [hroot, hlinks]
    have hgrows := harr.grows (List.subset_append_left _ _)
    rcases hp.covered x hx with hx | ⟨levels, hx⟩
    · obtain ⟨top, htop, levels, hx⟩ := h.covered x hx
      have hx₁ := (hp.grown.grows d.tree.sound).descends hx
      exact ⟨top, List.mem_append_left _ htop, levels, hgrows.descends hx₁⟩
    · exact ⟨_, List.mem_append_right _ List.mem_cons_self, levels, hgrows.descends hx⟩
  · rw [hlinks, harr.relinked.nodes_nextKey, hp.counted, h.counted, Branch.sizeOfForest_append,
      Branch.sizeOfForest_singleton]

/-- Attaching leaves everything but the blocks as it was. -/
theorem exists_attachAll (d : Document R S) (l : ListId) (bs : List (Branch (Block R S))) :
    ∃ t, (d.attachAll l bs).2 = d.withTree t := by
  induction bs generalizing d with
  | nil => exact ⟨d.tree, rfl⟩
  | cons b bs ih =>
    obtain ⟨t, ht⟩ := ih (d.attach l b).2
    exact ⟨t, ht⟩

/-- **Branches that are attached one after the other** are attached together. -/
theorem adds_attachAll (d : Document R S) {l : ListId} (hl : (d.tree.list? l).isSome)
    (bs : List (Branch (Block R S))) :
    d.tree.Adds (d.attachAll l bs).2.tree l (d.attachAll l bs).1 bs := by
  induction bs generalizing d with
  | nil => exact .refl hl
  | cons b bs ih =>
    have hb : d.tree.Adds (d.attach l b).2.tree l [(d.attach l b).1] [b] := d.tree.adds_attach hl b
    obtain ⟨r, hr⟩ := Option.isSome_iff_exists.mp hl
    obtain ⟨q, hq, -⟩ := hb.list hr
    exact hb.trans (ih (d.attach l b).2 (Option.isSome_iff_exists.mpr ⟨q, hq⟩))

/-- **Branches that are attached are held.** -/
theorem HoldsForest.attachAll (h : d.HoldsForest bs) (cs : List (Branch (Block R S))) :
    (d.attachAll d.root cs).2.HoldsForest (bs ++ cs) := by
  induction cs generalizing d bs with
  | nil => simpa [Document.attachAll] using h
  | cons c cs ih =>
    have hrest := ih (h.attach c)
    rw [List.append_assoc] at hrest
    exact hrest

/-! ### What a document shows -/

/-- **What is held is what the document shows.** -/
theorem HoldsForest.forest_root (h : d.HoldsForest bs) : d.forest d.root = bs := by
  refine Tree.forest_of_shows h.shows fun b hb => ?_
  rw [h.counted]
  exact Nat.lt_of_lt_of_le b.height_lt_size (Branch.size_le_sizeOfForest hb)

/-- Every block of the document has its place in the forest: it is so many levels below the top of a
branch, and below it is what the branch has there. -/
theorem HoldsForest.exists_branch (h : d.HoldsForest bs) {x : NodeId} (hx : d.tree.contains x) :
    ∃ top ∈ d.tree.members d.root, ∃ levels, d.tree.links.Descends levels top x ∧
      ∃ b ∈ bs, ∃ c, d.tree.links.Shows x c ∧ c.height + levels ≤ b.height ∧
        ∀ P : Block R S → Nat → Prop, b.Every P → c.Every P := by
  obtain ⟨top, htop, levels, hlevels⟩ := h.covered x hx
  obtain ⟨b, hb, hshows⟩ := exists_right_of_forall₂ h.shows htop
  obtain ⟨c, hc⟩ := hshows.descends hlevels
  exact ⟨top, htop, levels, hlevels, b, hb, c, hc⟩

/-- What holds of every label of the forest, with the number of its lists, holds of every block. -/
theorem HoldsForest.each {P : Block R S → Nat → Prop} (h : d.HoldsForest bs)
    (hP : ∀ b ∈ bs, b.Every P) {x : NodeId} {n : TreeNode (Block R S)}
    (hn : d.tree.links.node? x = some n) : P n.item n.lists.length := by
  have hx : d.tree.contains x := by rw [Tree.contains, Links.contains, hn]; rfl
  obtain ⟨-, -, -, -, b, hb, ⟨a, ls⟩, hshows, -, hevery⟩ := h.exists_branch hx
  obtain ⟨m, hm, rfl, hls⟩ := Links.shows_node_iff.mp hshows
  obtain rfl := Option.some.inj (hn.symm.trans hm)
  exact hls.length_eq ▸ (Branch.every_node_iff.mp (hevery P (hP b hb))).1

theorem HoldsForest.blockCount_le (h : d.HoldsForest bs) :
    d.blockCount ≤ Branch.sizeOfForest bs := by
  rw [← h.counted]
  exact Arena.size_le_nextKey _

end Document

end Toolpath
