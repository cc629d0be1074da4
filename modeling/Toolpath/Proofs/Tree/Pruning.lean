import Toolpath.Proofs.Tree.Walks

/-!
# Trees without a subtree

A node is removed with everything below it. The nodes that are left have the items, the lists and
the parents that they had, and a list that is left has lost the removed node at most: whatever else
is gone was in a list whose owner is gone.

So a node that is left has the same nodes around it, and the same siblings before it but for the one
that was removed. None of this asks for a tree without cycles.

## Main definitions

* `Tree.Pruned` — the tree without a node and everything below it

## Main results

* `Tree.pruned_of_remove` — what removing a node leaves
* `Tree.Pruned.ancestors`, `Pruned.preceding` — the nodes around and before a node that is left
-/

namespace Toolpath

namespace Tree

variable {α : Type} {t u : Tree α} {n x : NodeId}

/-! ### A node with another item -/

section Modify

variable (t : Tree α) (n : NodeId) (f : α → α)

theorem get?_modify_of_ne (hx : x ≠ n) : (t.modify n f).get? x = t.get? x := by
  show ((t.links.modify n f).node? x).map _ = (t.links.node? x).map _
  rw [Links.node?_modify, Option.map_map]
  exact congrArg (Option.map · _) (funext fun m => by simp [hx])

theorem get?_modify_self : (t.modify n f).get? n = (t.get? n).map f := by
  show ((t.links.modify n f).node? n).map _ = ((t.links.node? n).map _).map f
  rw [Links.node?_modify, Option.map_map, Option.map_map]
  exact congrArg (Option.map · _) (funext fun m => by simp)

/-- A change that leaves the item of the node as it is. -/
theorem modify_eq_self (h : ∀ a, t.get? n = some a → f a = a) : t.modify n f = t := by
  refine Tree.ext (congrArg (fun nodes => ({ t.links with nodes } : Links α))
    (Arena.modify_eq_self fun m hm => ?_))
  have hitem : t.get? n = some m.item := get?_of_node? hm
  exact congrArg (fun item => { m with item }) (h m.item hitem)

@[simp] theorem members_modify : (t.modify n f).members = t.members :=
  (t.sound.holds.modify n f).members_eq

@[simp] theorem childLists_modify (x : NodeId) : (t.modify n f).childLists x = t.childLists x := by
  show (((t.links.modify n f).node? x).map _).getD [] = ((t.links.node? x).map _).getD []
  rw [Links.node?_modify, Option.map_map]
  refine congrArg (Option.getD · []) (congrArg (Option.map · _) (funext fun m => ?_))
  show (if x = n then { m with item := f m.item } else m : TreeNode α).lists = m.lists
  split <;> rfl

@[simp] theorem listOf?_modify (x : NodeId) : (t.modify n f).listOf? x = t.listOf? x := by
  show ((t.links.modify n f).node? x).bind _ = (t.links.node? x).bind _
  rw [Links.node?_modify, Option.bind_map]
  refine congrArg (Option.bind _) (funext fun m => ?_)
  show (if x = n then { m with item := f m.item } else m : TreeNode α).list = m.list
  split <;> rfl

@[simp] theorem owner?_modify (l : ListId) : (t.modify n f).owner? l = t.owner? l := rfl

@[simp] theorem contains_modify (x : NodeId) : (t.modify n f).contains x = t.contains x := by
  show ((t.links.modify n f).node? x).isSome = (t.links.node? x).isSome
  rw [Links.node?_modify, Option.isSome_map]

end Modify

/-! ### What is left -/

/-- The second tree is the first one without a node and everything below it. -/
structure Pruned (t u : Tree α) (n : NodeId) : Prop where
  /-- The node is gone. -/
  gone : u.contains n = false
  /-- What is left has its item. -/
  item : ∀ x, u.contains x → u.get? x = t.get? x
  /-- What is left has its lists. -/
  childLists : ∀ x, u.contains x → u.childLists x = t.childLists x
  /-- What is left is in the list where it was. -/
  listOf? : ∀ x, u.contains x → u.listOf? x = t.listOf? x
  /-- A list that is left has its owner. -/
  owner? : ∀ l, (u.list? l).isSome → u.owner? l = t.owner? l
  /-- A list whose owner is left has lost the node at most. -/
  members : ∀ l, (∀ o, t.owner? l = some o → u.contains o) →
    u.members l = (t.members l).filter (· != n)
  /-- No node is made. -/
  counted : u.links.nodes.nextKey = t.links.nodes.nextKey

/-- Nothing is below a node that is gone. -/
theorem pruned_self (h : t.contains n = false) : t.Pruned t n where
  gone := h
  item := fun _ _ => rfl
  childLists := fun _ _ => rfl
  listOf? := fun _ _ => rfl
  owner? := fun _ _ => rfl
  members := fun l _ => by
    refine (List.filter_eq_self.mpr fun x hx => bne_iff_ne.mpr ?_).symm
    rintro rfl
    exact Bool.eq_false_iff.mp h (t.sound.holds.alive l x hx).1
  counted := rfl

theorem pruned_of_loses (h : t.links.Shrinks u.links) (hlost : t.links.Loses u.links (· = n))
    (hgone : u.contains n = false) : t.Pruned u n where
  gone := hgone
  item := fun x hx => by
    obtain ⟨m, hm⟩ := Option.isSome_iff_exists.mp hx
    obtain ⟨m', hm', hitem, -⟩ := h.node hm
    rw [get?_of_node? hm, get?_of_node? hm', hitem]
  childLists := fun x hx => by
    obtain ⟨m, hm⟩ := Option.isSome_iff_exists.mp hx
    obtain ⟨m', hm', -, hlists⟩ := h.node hm
    rw [childLists_of_node? hm, childLists_of_node? hm', hlists]
  listOf? := fun x hx => by
    refine Option.ext fun l => ?_
    rw [Tree.listOf?, Tree.listOf?, u.sound.holds.listOf?_eq_some_iff,
      t.sound.holds.listOf?_eq_some_iff, h.members, List.mem_filter]
    exact and_iff_left hx
  owner? := fun l hl => by
    obtain ⟨r, hr⟩ := Option.isSome_iff_exists.mp hl
    obtain ⟨q, hq, ho⟩ := h.list hr
    rw [Tree.owner?, Tree.owner?, hr, list?, hq, Option.bind_some, Option.bind_some, ho]
  members := fun l howner => by
    rw [Tree.members, h.members]
    refine List.filter_congr fun x hx => ?_
    cases hleft : u.links.contains x with
    | true =>
      refine (bne_iff_ne.mpr ?_).symm
      rintro rfl
      rw [contains, hleft] at hgone
      cases hgone
    | false =>
      -- the owner of the list is there, so this is the node itself
      cases hlost x (t.sound.holds.alive l x hx).1 hleft with
      | top hself => exact hself ▸ (bne_self_eq_false x).symm
      | @member _ o k r hk hr ho hunder =>
        obtain rfl := t.sound.holds.eq_of_mem hx hk
        have hdead : u.links.contains o = false :=
          h.gone_of_under u.sound (fun y (hy : y = n) => hy.symm ▸ hgone) hunder
        have halive := howner o (Option.bind_eq_some_iff.mpr ⟨r, hr, ho⟩)
        rw [contains, hdead] at halive
        cases halive
  counted := h.counted

/-- What the node itself had as its item does not matter. -/
theorem Pruned.of_modify {f : α → α} (h : (t.modify n f).Pruned u n) : t.Pruned u n where
  gone := h.gone
  item := fun x hx => by
    refine (h.item x hx).trans (t.get?_modify_of_ne n f ?_)
    rintro rfl
    exact Bool.eq_false_iff.mp h.gone hx
  childLists := fun x hx => (h.childLists x hx).trans (t.childLists_modify n f x)
  listOf? := fun x hx => (h.listOf? x hx).trans (t.listOf?_modify n f x)
  owner? := h.owner?
  members := fun l hl => by rw [h.members l hl, members_modify]
  counted := h.counted.trans (Arena.nextKey_modify _ _ _)

/-- What the node itself has as its item does not matter. -/
theorem Pruned.modify (h : t.Pruned u n) (f : α → α) : (t.modify n f).Pruned u n where
  gone := h.gone
  item := fun x hx => by
    refine (h.item x hx).trans (t.get?_modify_of_ne n f ?_).symm
    rintro rfl
    exact Bool.eq_false_iff.mp h.gone hx
  childLists := fun x hx => (h.childLists x hx).trans (t.childLists_modify n f x).symm
  listOf? := fun x hx => (h.listOf? x hx).trans (t.listOf?_modify n f x).symm
  owner? := h.owner?
  members := fun l hl => by rw [h.members l hl, members_modify]
  counted := h.counted.trans (Arena.nextKey_modify _ _ _).symm

section Remove

variable [Lockable α]

theorem remove_eq_of_remove? {a : α} (h : t.remove? n = some (a, u)) :
    t.links.remove n = .ok (some a, u.links) := by
  obtain ⟨b, s, hs, -⟩ := t.sound.settles_remove n
  obtain ⟨hitem, hlinks⟩ := settle_eq (t.sound.settles_remove n) hs
  obtain ⟨a, ha, hau⟩ := Option.map_eq_some_iff.mp h
  obtain ⟨rfl, rfl⟩ := Prod.mk.inj hau
  exact hs.trans (congrArg Except.ok (Prod.ext (hitem.symm.trans ha) hlinks.symm))

/-- A node that is removed was not locked, and it is destroyed. -/
theorem shrinks_of_remove {a : α} (h : t.remove? n = some (a, u)) :
    t.links.Shrinks u.links ∧ t.links.Loses u.links (· = n) ∧ u.links.contains n = false := by
  obtain ⟨s, hs, -, hshrinks, hlost⟩ := t.sound.remove n
  obtain ⟨hsome, rfl⟩ := Prod.mk.inj (Except.ok.inj (hs.symm.trans (remove_eq_of_remove? h)))
  have hfree : t.links.isLocked n = false := by
    cases hlocked : t.links.isLocked n with
    | true => rw [hlocked, if_pos rfl] at hsome; cases hsome
    | false => rfl
  exact ⟨hshrinks, hlost hfree⟩

/-- **What removing a node leaves.** -/
theorem pruned_of_remove {a : α} (h : t.remove? n = some (a, u)) : t.Pruned u n := by
  obtain ⟨hshrinks, hloses, hgone⟩ := shrinks_of_remove h
  exact pruned_of_loses hshrinks hloses hgone

/-- A node that is gone cannot be removed. -/
theorem remove_of_dead (h : t.contains n = false) : t.links.remove n = .ok (none, t.links) := by
  have hnode : t.links.node? n = none :=
    Option.isNone_iff_eq_none.mp (Option.isSome_eq_false_iff.mp h)
  have hget : t.links.get? n = none := by rw [Links.get?, hnode, Option.map_none]
  have hlocked : t.links.isLocked n = false := by rw [Links.isLocked, hget]; rfl
  have hdestroy : t.links.destroyTo (2 * t.links.size + 1) n = .ok t.links := by
    simp only [Links.destroyTo, Links.splice, hnode, bind, Except.bind, pure, Except.pure]
  rw [Links.remove, hlocked, if_neg Bool.false_ne_true, hget, hdestroy]
  rfl

theorem remove?_of_refused (h : t.links.remove n = .ok (none, t.links)) : t.remove? n = none :=
  Option.map_eq_none_iff.mpr (settle_eq (t.sound.settles_remove n) h).1

theorem remove?_of_dead (h : t.contains n = false) : t.remove? n = none :=
  remove?_of_refused (remove_of_dead h)

/-- A node that is there and not locked can be removed. -/
theorem exists_remove {a : α} (h : t.get? n = some a) (hfree : Lockable.locked a = false) :
    ∃ u, t.remove? n = some (a, u) := by
  obtain ⟨s, hs, -⟩ := t.sound.remove n
  obtain ⟨hitem, -⟩ := settle_eq (t.sound.settles_remove n) hs
  have hlocked : t.links.isLocked n = false := by
    rw [Links.isLocked, show t.links.get? n = some a from h, Option.map_some, hfree]
    rfl
  rw [hlocked, if_neg Bool.false_ne_true, show t.links.get? n = some a from h] at hitem
  exact ⟨_, Option.map_eq_some_iff.mpr ⟨a, hitem, rfl⟩⟩

end Remove

/-- Where something is made of every member of a row, a member that nothing is made of may be left
out. -/
theorem flatMap_filter_ne {β : Type} {f g : NodeId → List β} {xs : List NodeId}
    (hfg : ∀ x ∈ xs.filter (· != n), f x = g x) (hn : g n = []) :
    (xs.filter (· != n)).flatMap f = xs.flatMap g := by
  rw [List.flatMap_congr hfg]
  induction xs with
  | nil => rfl
  | cons x xs ih =>
    by_cases hx : x = n
    · subst hx
      rw [List.filter_cons_of_neg (by simp)] at hfg ⊢
      rw [ih hfg, List.flatMap_cons, hn, List.nil_append]
    · rw [List.filter_cons_of_pos (by simpa using hx)] at hfg ⊢
      rw [List.flatMap_cons, List.flatMap_cons, ih (List.forall_mem_cons.mp hfg).2]

/-! ### Around what is left -/

namespace Pruned

variable (h : t.Pruned u n)

include h

theorem ne (hx : u.contains x) : x ≠ n := by
  rintro rfl
  exact Bool.eq_false_iff.mp h.gone hx

theorem parent? (hx : u.contains x) : u.parent? x = t.parent? x := by
  rw [Tree.parent?, Tree.parent?, ← h.listOf? x hx]
  cases hl : u.listOf? x with
  | none => rfl
  | some l =>
    exact h.owner? l (u.sound.holds.alive l x (u.sound.holds.listOf?_eq_some_iff.mp hl)).2

theorem ancestorsTo (hx : u.contains x) (fuel : Nat) :
    u.ancestorsTo fuel x = t.ancestorsTo fuel x ∧ ∀ a ∈ t.ancestorsTo fuel x, u.contains a := by
  induction fuel generalizing x with
  | zero => exact ⟨rfl, List.forall_mem_nil _⟩
  | succ fuel ih =>
    rw [Tree.ancestorsTo, Tree.ancestorsTo, ← h.parent? hx]
    cases hp : u.parent? x with
    | none => exact ⟨rfl, List.forall_mem_nil _⟩
    | some p =>
      have halive : u.contains p := contains_of_parent? hp
      obtain ⟨heq, hleft⟩ := ih halive
      exact ⟨congrArg (p :: ·) heq, List.forall_mem_cons.mpr ⟨halive, hleft⟩⟩

/-- **The nodes around a node that is left** are those that were around it, -/
theorem ancestors (hx : u.contains x) : u.ancestors x = t.ancestors x := by
  rw [Tree.ancestors, h.counted]
  exact (h.ancestorsTo hx _).1

/-- and they are left. -/
theorem contains_of_mem_ancestors (hx : u.contains x) {a : NodeId} (ha : a ∈ t.ancestors x) :
    u.contains a :=
  (h.ancestorsTo hx _).2 a ha

/-- **The siblings before a node that is left** are those that were before it, without the one that
is removed. -/
theorem preceding (hx : u.contains x) : u.preceding x = (t.preceding x).filter (· != n) := by
  have hcut (xs : List NodeId) :
      (xs.filter (· != n)).takeWhile (· != x) = (xs.takeWhile (· != x)).filter (· != n) := by
    induction xs with
    | nil => rfl
    | cons y ys ih =>
      have hne := h.ne hx
      by_cases hy : y = n
      · subst hy
        simpa [hne.symm] using ih
      · by_cases hyx : y = x
        · simp [hyx, hne]
        · simpa [hy, hyx] using ih
  rw [Tree.preceding, Tree.preceding, ← h.listOf? x hx]
  cases hl : u.listOf? x with
  | none => rfl
  | some l =>
    have howner : ∀ o, t.owner? l = some o → u.contains o := by
      intro o ho
      rw [← h.owner? l (u.sound.holds.alive l x (u.sound.holds.listOf?_eq_some_iff.mp hl)).2] at ho
      exact contains_of_parent? (Option.bind_eq_some_iff.mpr ⟨l, hl, ho⟩)
    show (u.members l).takeWhile _ = ((t.members l).takeWhile _).filter _
    rw [h.members l howner, hcut]

/-- The lists of a node that is left have lost the node at most. -/
theorem members_of_mem_childLists (hx : u.contains x) {l : ListId} (hl : l ∈ t.childLists x) :
    u.members l = (t.members l).filter (· != n) := by
  refine h.members l fun o ho => ?_
  rw [owner?_of_mem_childLists hl] at ho
  exact Option.some.inj ho ▸ hx

end Pruned

end Tree

end Toolpath
