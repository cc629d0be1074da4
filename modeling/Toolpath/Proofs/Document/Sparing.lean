import Toolpath.Proofs.Document.Regular
import Toolpath.Proofs.Tree.Enlarging
import Toolpath.Proofs.Tree.Pruning

/-!
# Edits spare results

A synthesis leaves results on blocks: program text and a status. No edit of a document reads or
writes them. A block that stays keeps its results, wherever it is moved and whatever becomes of its
payload and its flags, and a block that is new has none.

Edits may follow each other only because names are not used again. A block that was removed and
another one made later under its name would look like one block that lost its results on the way.

## Main definitions

* `Block.results` — what a synthesis left on a block
* `Document.Spares` — an edit neither makes nor changes results

## Main results

* `Document.Spares.trans` — edits that follow each other
* `Document.spares_create`, `spares_move`, … — the operations of documents
-/

namespace Toolpath

variable {R S : Type}

namespace Block

/-- What a synthesis left on the block: its program text and its status. -/
def results (b : Block R S) : String × String := (b.code, b.status)

/-- Nothing was left on the block by a synthesis. -/
def Bare (b : Block R S) : Prop := b.results = ("", "")

theorem bare_fresh (b : Block R S) : b.fresh.Bare := rfl

end Block

namespace Document

variable {d e f : Document R S}

/-- The second document comes from the first one by an edit that neither makes nor changes
results. -/
structure Spares (d e : Document R S) : Prop extends d.tree.links.Newer e.tree.links where
  /-- A block that stays keeps its results. -/
  kept : ∀ {x a b}, d.get? x = some a → e.get? x = some b → b.results = a.results
  /-- A block that is new has none. -/
  bare : ∀ {x b}, d.get? x = none → e.get? x = some b → b.Bare

theorem key_lt_of_get? {x : NodeId} {b : Block R S} (hb : d.get? x = some b) :
    x.key < d.tree.links.nodes.nextKey :=
  Links.key_lt_of_contains (contains_of_get? hb)

theorem exists_get?_of_contains {x : NodeId} (hx : d.tree.links.contains x) :
    ∃ b, d.get? x = some b := by
  obtain ⟨n, hn⟩ := Option.isSome_iff_exists.mp hx
  exact ⟨n.item, Tree.get?_of_node? hn⟩

/-- **Edits that follow each other** spare results together. -/
theorem Spares.trans (h : d.Spares e) (h' : e.Spares f) : d.Spares f where
  toNewer := h.toNewer.trans h'.toNewer
  kept := fun {x a c} ha hc => by
    cases hb : e.get? x with
    | none =>
      -- the block would be gone in between, and its name in use again
      rcases h'.made x (contains_of_get? hc) with hx | hx
      · obtain ⟨b, hb'⟩ := exists_get?_of_contains hx
        rw [hb] at hb'
        cases hb'
      · have hold := key_lt_of_get? ha
        have hnext := h.next
        omega
    | some b => exact (h'.kept hb hc).trans (h.kept ha hb)
  bare := fun {x c} ha hc => by
    cases hb : e.get? x with
    | none => exact h'.bare hb hc
    | some b => exact (h'.kept hb hc).trans (h.bare ha hb)

/-! ### What changes of trees do -/

/-- The settings of a document have no part in what is left on its blocks. -/
theorem Spares.of_tree_eq (h : e.tree = d.tree) : d.Spares e where
  toNewer := h ▸ .refl _
  kept := fun {x a b} ha hb => by
    rw [get?, h] at hb
    obtain rfl := Option.some.inj (ha.symm.trans hb)
    rfl
  bare := fun {x b} ha hb => by
    rw [get?, h] at hb
    cases ha.symm.trans hb

theorem spares_of_relinked {t : Tree (Block R S)} (h : d.tree.links.Relinked t.links) :
    d.Spares (d.withTree t) where
  toNewer := h.newer
  kept := fun {x a b} ha hb => by
    obtain rfl := Option.some.inj (ha.symm.trans ((h.get? x).symm.trans hb))
    rfl
  bare := fun {x b} ha hb => by cases ha.symm.trans ((h.get? x).symm.trans hb)

theorem spares_of_shrinks {t : Tree (Block R S)} (h : d.tree.links.Shrinks t.links) :
    d.Spares (d.withTree t) := by
  have hstayed {x : NodeId} {b : Block R S} (hb : t.get? x = some b) : d.get? x = some b := by
    obtain ⟨n, hn, rfl⟩ := Option.map_eq_some_iff.mp hb
    obtain ⟨m, hm, hitem, -⟩ := h.node hn
    exact (Tree.get?_of_node? hm).trans (congrArg some hitem)
  refine ⟨h.newer, fun ha hb => ?_, fun ha hb => ?_⟩
  · obtain rfl := Option.some.inj (ha.symm.trans (hstayed hb))
    rfl
  · cases ha.symm.trans (hstayed hb)

/-- A branch without results is planted. -/
theorem spares_planted {t : Tree (Block R S)} {top : NodeId} {br : Branch (Block R S)}
    (h : d.tree.links.Planted top br t.links) (hnewer : d.tree.links.Newer t.links)
    (hbr : br.Every fun b _ => b.Bare) : d.Spares (d.withTree t) where
  toNewer := hnewer
  kept := fun {x a b} ha hb => by
    obtain ⟨n, hn, rfl⟩ := Option.map_eq_some_iff.mp ha
    have hkept : t.get? x = some n.item := Tree.get?_of_node? (h.grown.node hn)
    obtain rfl := Option.some.inj (hkept.symm.trans hb)
    rfl
  bare := fun {x b} ha hb => by
    have hx : t.links.contains x := contains_of_get? (d := d.withTree t) hb
    rcases h.covered x hx with hx | ⟨levels, hx⟩
    · obtain ⟨a, ha'⟩ := exists_get?_of_contains hx
      rw [ha] at ha'
      cases ha'
    · obtain ⟨⟨a, ls⟩, hshows, -, hevery⟩ := h.shows.descends hx
      obtain ⟨m, hm, rfl, -⟩ := Links.shows_node_iff.mp hshows
      have hitem : t.get? x = some m.item := Tree.get?_of_node? hm
      obtain rfl := Option.some.inj (hitem.symm.trans hb)
      exact (Branch.every_node_iff.mp (hevery _ hbr)).1

/-! ### The operations of documents -/

theorem spares_create {b : Block R S} (hb : b.Bare) : d.Spares (d.create b).2 := by
  have hbare : (bare b).Every fun b _ => b.Bare := by
    rw [Document.bare, Branch.every_node_iff]
    cases b.kind.isContainer <;> simp [hb]
  rw [create_eq]
  exact spares_planted (d.tree.planted_plant _) (d.tree.enlarges_plant _).newer hbare

theorem spares_move (d : Document R S) (m : Move) : d.Spares (d.withTree (d.tree.move m).2) :=
  spares_of_relinked (d.tree.relinked_move m)

theorem spares_modify (d : Document R S) (id : NodeId) {f : Block R S → Block R S}
    (hf : ∀ b, (f b).results = b.results) : d.Spares (d.modify id f) := by
  have hget (x : NodeId) :
      (d.modify id f).get? x = (d.get? x).map (if x = id then f else fun b => b) := by
    split
    · rename_i hx
      exact hx ▸ Tree.get?_modify_self d.tree id f
    · rename_i hx
      exact (Tree.get?_modify_of_ne d.tree id f hx).trans Option.map_id'.symm
  refine ⟨d.tree.links.newer_modify id f, fun {x a b} ha hb => ?_, fun {x b} ha hb => ?_⟩
  · rw [hget, ha] at hb
    obtain rfl := Option.some.inj hb
    split
    · exact hf a
    · rfl
  · rw [hget, ha] at hb
    cases hb

theorem spares_remove {id : NodeId} {b : Block R S} (he : d.remove? id = some (b, e)) :
    d.Spares e := by
  obtain ⟨t, rfl, ht⟩ := shrinks_remove he
  exact spares_of_shrinks ht

theorem spares_destroyList (d : Document R S) (l : ListId) :
    d.Spares (d.withTree (d.tree.destroyList l)) :=
  spares_of_shrinks (shrinks_destroyList d.tree l)

theorem spares_duplicate {id copy : NodeId} (he : d.duplicate? id = some (copy, e)) :
    d.Spares e := by
  obtain ⟨⟨c, t⟩, ht, hce⟩ := Option.map_eq_some_iff.mp he
  obtain ⟨-, rfl⟩ := Prod.mk.inj hce
  obtain ⟨br, hshows, hplanted⟩ := Tree.planted_duplicateWith ht
  have hbare : (br.map Block.fresh).Every fun b _ => b.Bare :=
    Branch.Every.map (hshows.every fun _ n _ => n.item.bare_fresh)
  have hcopied := spares_planted hplanted (Tree.enlarges_duplicateWith ht).newer hbare
  exact hcopied.trans (spares_move (d.withTree t) (.insertAfter id c))

theorem spares_attach (d : Document R S) (l : ListId) {br : Branch (Block R S)}
    (hbr : br.Every fun b _ => b.Bare) : d.Spares (d.attach l br).2 := by
  have hplanted := spares_planted (d.tree.planted_plant br) (d.tree.enlarges_plant br).newer hbr
  exact hplanted.trans
    (spares_move (d.withTree (d.tree.plant br).2) (.pushBack l (d.tree.plant br).1))

theorem spares_attachAll (d : Document R S) (l : ListId) {brs : List (Branch (Block R S))}
    (hbrs : ∀ br ∈ brs, br.Every fun b _ => b.Bare) : d.Spares (d.attachAll l brs).2 := by
  induction brs generalizing d with
  | nil => exact .of_tree_eq rfl
  | cons br brs ih =>
    have hfirst := d.spares_attach l (hbrs br List.mem_cons_self)
    exact hfirst.trans (ih _ fun br hbr => hbrs br (List.mem_cons_of_mem _ hbr))

end Document

end Toolpath
