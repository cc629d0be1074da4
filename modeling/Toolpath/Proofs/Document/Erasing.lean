import Toolpath.Document.Segment
import Toolpath.Proofs.Document.Scoping
import Toolpath.Proofs.Tree.Pruning

/-!
# Documents without a block

A block is suppressed by a flag, or erased with everything below it. What is left has the blocks
around it that it had, and the search for a tool meets the blocks that it met but for the one that
is erased. So what a block inherits and what it resolves to can change only with the tool change
that the search finds: if that is the erased block, the search goes on to another one.

## Main definitions

* `Document.suppress` — the document with a block suppressed
* `Document.erase` — the document without a block and everything below it

## Main results

* `Document.exists_erase` — what erasing a block leaves
* `Document.findTool?_pruned`, `placement_pruned`, `childSegments_pruned` — what a block that is
  left inherits and resolves to
-/

namespace Toolpath

namespace Block

variable {R S : Type}

/-- The block suppressed. -/
def suppress (b : Block R S) : Block R S := { b with flags := { b.flags with suppressed := true } }

/-- The block unlocked. -/
def unlock (b : Block R S) : Block R S := { b with flags := { b.flags with locked := false } }

end Block

namespace Document

variable {R S : Type}

/-- The document with a block suppressed. -/
def suppress (d : Document R S) (n : NodeId) : Document R S := d.modify n Block.suppress

/-- The document without a block and everything below it, whether the block is locked or not. -/
def erase (d : Document R S) (n : NodeId) : Document R S :=
  (((d.modify n Block.unlock).remove? n).map Prod.snd).getD d

/-- **What erasing a block leaves.** -/
theorem exists_erase (d : Document R S) (n : NodeId) :
    ∃ u, d.erase n = d.withTree u ∧ d.tree.Pruned u n := by
  cases hb : d.get? n with
  | none =>
    have hdead : d.tree.contains n = false := by
      have hnone : d.tree.links.node? n = none := Option.map_eq_none_iff.mp hb
      rw [Tree.contains, Links.contains, hnone]
      rfl
    have hgone : (d.tree.modify n Block.unlock).remove? n = none :=
      Tree.remove?_of_dead ((d.tree.contains_modify n _ n).trans hdead)
    have hnone : (d.modify n Block.unlock).remove? n = none :=
      congrArg (Option.map _) hgone
    exact ⟨d.tree, by rw [erase, hnone]; rfl, Tree.pruned_self hdead⟩
  | some b =>
    have hitem : (d.tree.modify n Block.unlock).get? n = some b.unlock := by
      rw [Tree.get?_modify_self, show d.tree.get? n = some b from hb]
      rfl
    obtain ⟨u, hu⟩ := Tree.exists_remove hitem rfl
    have hremove : (d.modify n Block.unlock).remove? n = some (b.unlock, d.withTree u) :=
      congrArg (Option.map _) hu
    exact ⟨u, by rw [erase, hremove]; rfl, (Tree.pruned_of_remove hu).of_modify⟩

/-! ### What a block that is left inherits -/

section Pruned

variable {d : Document R S} {u : Tree (Block R S)} {n x : NodeId}

theorem contains_of_mem_scope {g : NodeId} (hg : g ∈ d.scope x) : d.tree.contains g := by
  obtain ⟨a, -, hg⟩ := List.mem_flatMap.mp hg
  exact Tree.contains_of_mem_preceding (List.mem_reverse.mp hg)

/-- Without an element that is not found first, the same is found. -/
theorem find?_filter_ne {p q : NodeId → Bool} {xs : List NodeId}
    (hpq : ∀ x ∈ xs.filter (· != n), q x = p x) (hn : xs.find? p ≠ some n) :
    (xs.filter (· != n)).find? q = xs.find? p := by
  induction xs with
  | nil => rfl
  | cons x xs ih =>
    by_cases hx : x = n
    · subst hx
      have hp : p x = false := by
        refine Bool.eq_false_iff.mpr fun hp => hn ?_
        rw [List.find?_cons_of_pos hp]
      rw [List.find?_cons_of_neg (by simp [hp])] at hn
      rw [List.filter_cons_of_neg (by simp)] at hpq ⊢
      rw [ih hpq hn, List.find?_cons_of_neg (by simp [hp])]
    · rw [List.filter_cons_of_pos (by simpa using hx)] at hpq ⊢
      obtain ⟨hqx, hpq⟩ := List.forall_mem_cons.mp hpq
      rw [List.find?_cons, List.find?_cons, hqx]
      cases hp : p x with
      | true => rfl
      | false =>
        rw [List.find?_cons_of_neg (by simp [hp])] at hn
        exact ih hpq hn

variable (h : d.tree.Pruned u n)

include h

theorem get?_pruned (hx : u.contains x) : (d.withTree u).get? x = d.get? x := h.item x hx

theorem tool?_pruned (hx : u.contains x) : (d.withTree u).tool? x = d.tool? x :=
  congrArg (Option.bind · Block.tool?) (get?_pruned h hx)

theorem children?_pruned (hx : u.contains x) : (d.withTree u).children? x = d.children? x :=
  congrArg List.head? (h.childLists x hx)

/-- The search for a tool meets the blocks that it met, but for the one that is gone. -/
theorem scope_pruned (hx : u.contains x) :
    (d.withTree u).scope x = (d.scope x).filter (· != n) := by
  rw [scope, scope, List.filter_flatMap]
  show (x :: u.ancestors x).flatMap _ = (x :: d.tree.ancestors x).flatMap _
  rw [h.ancestors hx]
  refine List.flatMap_congr fun a ha => ?_
  have halive : u.contains a := by
    rcases List.mem_cons.mp ha with rfl | ha
    · exact hx
    · exact h.contains_of_mem_ancestors hx ha
  show (u.preceding a).reverse = (d.tree.preceding a).reverse.filter _
  rw [h.preceding halive, List.filter_reverse]

/-- **Unless it finds the block that is gone**, the search finds the same tool change, -/
theorem toolBlock?_pruned (hx : u.contains x) (hn : d.toolBlock? x ≠ some n) :
    (d.withTree u).toolBlock? x = d.toolBlock? x := by
  rw [toolBlock?, toolBlock?, scope_pruned h hx]
  refine find?_filter_ne (fun g hg => ?_) hn
  rw [← scope_pruned h hx] at hg
  rw [tool?_pruned h (contains_of_mem_scope hg)]

/-- and the block cuts with the same tool. -/
theorem findTool?_pruned (hx : u.contains x) (hn : d.toolBlock? x ≠ some n) :
    (d.withTree u).findTool? x = d.findTool? x := by
  have hfound := toolBlock?_pruned h hx hn
  rw [findTool?_eq, findTool?_eq, ← hfound]
  cases ht : (d.withTree u).toolBlock? x with
  | none => rfl
  | some t => exact tool?_pruned h (contains_of_mem_scope (List.mem_of_find?_eq_some ht))

variable [Analytic R]

/-- **The placement** of a block that is left. -/
theorem placement_pruned (hx : u.contains x)
    (hn : ∀ s data, d.firstSketch? (d.tree.ancestors x) = some (s, data) →
      d.toolBlock? s ≠ some n) : (d.withTree u).placement x = d.placement x := by
  have hget : ∀ a ∈ d.tree.ancestors x, (d.withTree u).get? a = d.get? a := fun a ha =>
    get?_pruned h (h.contains_of_mem_ancestors hx ha)
  have hancestors : (d.withTree u).tree.ancestors x = d.tree.ancestors x := h.ancestors hx
  have hmotion : (d.withTree u).motionThrough (d.tree.ancestors x) =
      d.motionThrough (d.tree.ancestors x) := by
    rw [motionThrough, motionThrough, List.filterMap_congr fun a ha => by rw [hget a ha]]
  have hsketch : (d.withTree u).firstSketch? (d.tree.ancestors x) =
      d.firstSketch? (d.tree.ancestors x) := by
    rw [firstSketch?, firstSketch?]
    generalize d.tree.ancestors x = as at hget
    induction as with
    | nil => rfl
    | cons a as ih =>
      obtain ⟨ha, has⟩ := List.forall_mem_cons.mp hget
      rw [List.findSome?_cons, List.findSome?_cons, ha, ih has]
  rw [placement, placement, hancestors, hmotion, hsketch]
  cases hs : d.firstSketch? (d.tree.ancestors x) with
  | none => rfl
  | some found =>
    obtain ⟨s, data⟩ := found
    have hmem : s ∈ d.tree.ancestors x := by
      obtain ⟨a, ha, hfound⟩ := List.exists_of_findSome?_eq_some hs
      obtain ⟨_, -, hfound⟩ := Option.map_eq_some_iff.mp hfound
      exact (Prod.mk.inj hfound).1 ▸ ha
    dsimp only
    rw [findTool?_pruned h (h.contains_of_mem_ancestors hx hmem) (hn s data hs)]

theorem segment?_pruned (hx : u.contains x) (hplace : (d.withTree u).placement x = d.placement x) :
    (d.withTree u).segment? x = d.segment? x := by
  rw [segment?, segment?, rawSegment?, rawSegment?, active?, active?, get?_pruned h hx, hplace]

/-- **The segments of the children** of a block that is left, if the block that is gone has none. -/
theorem childSegments_pruned (hx : u.contains x) (hn : d.segment? n = none)
    (hplace : ∀ l, d.children? x = some l → ∀ c ∈ d.tree.members l, u.contains c →
      (d.withTree u).placement c = d.placement c) :
    (d.withTree u).childSegments x = d.childSegments x := by
  rw [childSegments, childSegments, children?_pruned h hx]
  cases hl : d.children? x with
  | none => rfl
  | some l =>
    have hrow : u.members l = (d.tree.members l).filter (· != n) :=
      h.members_of_mem_childLists hx (List.mem_of_head? hl)
    show (u.members l).filterMap _ = (d.tree.members l).filterMap _
    rw [List.filterMap_eq_flatMap_toList, List.filterMap_eq_flatMap_toList, hrow]
    refine Tree.flatMap_filter_ne (fun c hc => ?_) (congrArg Option.toList hn)
    have hleft := (u.sound.holds.alive l c (hrow.symm ▸ hc : c ∈ u.members l)).1
    rw [segment?_pruned h hleft (hplace l hl c (List.mem_filter.mp hc).1 hleft)]

end Pruned

end Document

end Toolpath
