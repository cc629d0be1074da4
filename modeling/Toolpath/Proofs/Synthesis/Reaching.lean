import Toolpath.Proofs.Synthesis.Fragments
import Toolpath.Proofs.Tree.Outermost

/-!
# The order in which blocks are reached

Synthesis reaches the blocks of the top level one after the other, and behind a group the blocks in
its list of children. So what it has reached before a block are the siblings before the block, each
with what is reached from there, behind the group around the block; and before that group its own
siblings, and so on outward. No block is reached twice.

## Main definitions

* `Document.Reaches` — synthesis reaches a block
* `Document.reachedFrom` — the blocks that it reaches from a block on
* `Document.earlier` — the blocks that it has reached before

## Main results

* `Document.reached_eq` — the blocks before a block are the earlier ones
* `Document.nodup_reached` — no block is reached twice
-/

namespace Toolpath

namespace Document

variable {R S : Type} (d : Document R S)

/-- The blocks in the list of children of a block. -/
def inside (x : NodeId) : List NodeId := ((d.children? x).map d.tree.members).getD []

/-- Synthesis reaches a block that is not suppressed at the top level, and inside a group that it
reaches. -/
inductive Reaches : NodeId → Prop where
  /-- A block of the top level. -/
  | top {x : NodeId} {b : Block R S} (hx : x ∈ d.tree.members d.root) (hb : d.get? x = some b)
    (hactive : b.flags.suppressed = false) : Reaches x
  /-- A block inside a group. -/
  | within {p x : NodeId} {g b : Block R S} (hp : Reaches p) (hg : d.get? p = some g)
    (hgroup : g.kind.isGroup = true) (hx : x ∈ d.inside p) (hb : d.get? x = some b)
    (hactive : b.flags.suppressed = false) : Reaches x

/-- The blocks that synthesis reaches from a block on, to a depth that `fuel` bounds. -/
def reachedTo (fuel : Nat) (x : NodeId) : List (NodeId × Block R S) :=
  ((d.tree.branchTo fuel x).map Branch.reached).getD []

/-- The blocks that synthesis reaches from a block on. -/
def reachedFrom (x : NodeId) : List (NodeId × Block R S) :=
  d.reachedTo d.tree.links.nodes.nextKey x

/-- A block under its name. -/
def entry (x : NodeId) : List (NodeId × Block R S) := ((d.get? x).map fun b => (x, b)).toList

/-- The blocks that synthesis has reached before a block that it reaches. -/
def earlier (x : NodeId) : List (NodeId × Block R S) :=
  (d.tree.ancestors x).reverse.flatMap
      (fun a => (d.tree.preceding a).flatMap d.reachedFrom ++ d.entry a)
    ++ (d.tree.preceding x).flatMap d.reachedFrom

variable {d} {x p : NodeId} {b g : Block R S}

theorem reached_eq_flatMap : d.reached = (d.tree.members d.root).flatMap d.reachedFrom := by
  rw [reached, Tree.forest, Tree.flatMap_filterMap]
  rfl

/-! ### What is reached -/

theorem isChild_of_mem_inside (hx : x ∈ d.inside p) : d.tree.links.IsChild p x := by
  rw [inside, children?, Tree.childLists] at hx
  cases hn : d.tree.node? p with
  | none => rw [hn] at hx; cases hx
  | some n =>
    rw [hn, Option.map_some, Option.getD_some] at hx
    cases hl : n.lists.head? with
    | none => rw [hl] at hx; cases hx
    | some l =>
      rw [hl, Option.map_some, Option.getD_some] at hx
      exact ⟨n, l, hn, List.mem_of_head? hl, hx⟩

theorem exists_inside_eq (hx : x ∈ d.inside p) :
    ∃ behind, d.inside p = d.tree.preceding x ++ x :: behind := by
  rw [inside] at hx ⊢
  cases hl : d.children? p with
  | none => rw [hl] at hx; cases hx
  | some l =>
    rw [hl] at hx
    exact Tree.exists_members_eq hx

theorem Reaches.active (h : d.Reaches x) (hb : d.get? x = some b) :
    b.flags.suppressed = false := by
  cases h with
  | top _ hb' hactive => exact Option.some.inj (hb.symm.trans hb') ▸ hactive
  | within _ _ _ _ hb' hactive => exact Option.some.inj (hb.symm.trans hb') ▸ hactive

/-- What is reached from a block on is the block, and if it is a group what is reached from the
blocks inside it. -/
theorem reachedTo_succ (fuel : Nat) (x : NodeId) : d.reachedTo (fuel + 1) x =
    match d.get? x with
    | none => []
    | some b =>
      if b.flags.suppressed then []
      else (x, b) :: if b.kind.isGroup then (d.inside x).flatMap (d.reachedTo fuel) else [] := by
  rw [reachedTo, Tree.branchTo, inside, children?, Tree.childLists]
  show _ = match (d.tree.node? x).map TreeNode.item with | none => _ | some b => _
  cases d.tree.node? x with
  | none => rfl
  | some n =>
    have hinside : ((n.lists.map fun l =>
        (d.tree.members l).filterMap (d.tree.branchTo fuel)).headD []).flatMap Branch.reached =
          ((n.lists.head?.map d.tree.members).getD []).flatMap (d.reachedTo fuel) := by
      cases n.lists with
      | nil => rfl
      | cons l rest => exact Tree.flatMap_filterMap _ _ _
    rw [Option.map_some, Option.map_some, Option.getD_some, Branch.reached_node, hinside]
    rfl

/-- What is reached from a block on is reached, if the block is. -/
theorem reaches_of_mem_reachedTo {fuel : Nat} {y : NodeId} (hx : (x, b) ∈ d.reachedTo fuel y)
    (hy : ∀ c, d.get? y = some c → c.flags.suppressed = false → d.Reaches y) : d.Reaches x := by
  induction fuel generalizing y with
  | zero => cases hx
  | succ fuel ih =>
    rw [reachedTo_succ] at hx
    cases hc : d.get? y with
    | none => rw [hc] at hx; cases hx
    | some c =>
      rw [hc] at hx
      dsimp only at hx
      split at hx
      · cases hx
      · rename_i hactive
        have hreached := hy c hc (Bool.eq_false_iff.mpr hactive)
        rcases List.mem_cons.mp hx with hx | hx
        · exact (Prod.mk.inj hx).1 ▸ hreached
        · split at hx
          · rename_i hgroup
            obtain ⟨z, hz, hx⟩ := List.mem_flatMap.mp hx
            exact ih hx fun a ha hactive => .within hreached hc hgroup hz ha hactive
          · cases hx

/-- **What synthesis reaches** is reached step by step. -/
theorem reaches_of_mem_reached (h : (x, b) ∈ d.reached) : d.Reaches x := by
  rw [reached_eq_flatMap] at h
  obtain ⟨y, hy, hx⟩ := List.mem_flatMap.mp h
  exact reaches_of_mem_reachedTo hx fun c hc hactive => .top hy hc hactive

/-! ### Where it is

The top level belongs to no block, so that what is reached is below a block without a parent. -/

section Rooted

variable (hroot : d.tree.owner? d.root = none)

include hroot

theorem Reaches.exists_outermost (h : d.Reaches x) : ∃ levels top, d.tree.parent? top = none ∧
    d.tree.links.contains top ∧ d.tree.links.Descends levels top x := by
  induction h with
  | top hx _ _ =>
    exact ⟨0, _, (Tree.parent?_of_mem hx).trans hroot, (d.tree.sound.holds.alive _ _ hx).1, rfl⟩
  | within _ _ _ hx _ _ ih =>
    obtain ⟨levels, top, htop, halive, hlevels⟩ := ih
    exact ⟨levels + 1, top, htop, halive,
      Links.descends_add.mpr ⟨_, hlevels, _, isChild_of_mem_inside hx, rfl⟩⟩

theorem Reaches.not_belowItself (h : d.Reaches x) : ¬ d.tree.links.BelowItself x := by
  obtain ⟨levels, top, htop, -, hlevels⟩ := h.exists_outermost hroot
  exact Tree.not_belowItself_of_outermost htop hlevels

theorem ancestors_of_top (hx : x ∈ d.tree.members d.root) : d.tree.ancestors x = [] := by
  have htop : d.tree.parent? x = none := (Tree.parent?_of_mem hx).trans hroot
  have halive := (d.tree.sound.holds.alive _ _ hx).1
  have hself : d.tree.links.Descends 0 x x := rfl
  rw [Tree.ancestors_of_outermost htop halive hself, htop]

/-- Around a block inside one that is reached are that block and the blocks around it. -/
theorem Reaches.ancestors_of_inside (hp : d.Reaches p) (hx : x ∈ d.inside p) :
    d.tree.ancestors x = p :: d.tree.ancestors p := by
  obtain ⟨levels, top, htop, halive, hlevels⟩ := hp.exists_outermost hroot
  have hchild := isChild_of_mem_inside hx
  have hbelow : d.tree.links.Descends (levels + 1) top x :=
    Links.descends_add.mpr ⟨p, hlevels, x, hchild, rfl⟩
  rw [Tree.ancestors_of_outermost htop halive hbelow, Tree.parent?_eq_some_iff.mpr hchild]

/-- The blocks around a block that is reached are groups. -/
theorem Reaches.group_of_mem_ancestors (h : d.Reaches x) {a : NodeId}
    (ha : a ∈ d.tree.ancestors x) : ∃ g, d.get? a = some g ∧ g.kind.isGroup = true := by
  induction h with
  | top hx _ _ =>
    rw [ancestors_of_top hroot hx] at ha
    cases ha
  | within hp hg hgroup hx hb hactive ih =>
    rw [hp.ancestors_of_inside hroot hx] at ha
    rcases List.mem_cons.mp ha with rfl | ha
    · exact ⟨_, hg, hgroup⟩
    · exact ih ha

/-! ### What is reached before -/

/-- What is reached from a block on: the block, and if it is a group what is reached from the blocks
inside it. -/
theorem Reaches.reachedFrom_eq (h : d.Reaches x) (hb : d.get? x = some b) : d.reachedFrom x =
    (x, b) :: if b.kind.isGroup then (d.inside x).flatMap d.reachedFrom else [] := by
  have halive : d.tree.links.contains x := by
    obtain ⟨n, hn, -⟩ := Option.map_eq_some_iff.mp hb
    exact Option.isSome_iff_exists.mpr ⟨n, hn⟩
  have hshallow (y : NodeId) : ¬ d.tree.links.Descends d.tree.links.nodes.nextKey x y := fun hy =>
    h.not_belowItself hroot (d.tree.sound.descends_self_of_deep halive (Nat.le_refl _) hy)
  have hfuel : d.reachedFrom x = d.reachedTo (d.tree.links.nodes.nextKey + 1) x := by
    rw [reachedFrom, reachedTo, reachedTo, Tree.branchTo_succ hshallow]
  rw [hfuel, reachedTo_succ, hb]
  dsimp only
  rw [if_neg (Bool.eq_false_iff.mp (h.active hb))]
  rfl

theorem Reaches.earlier_of_inside (hp : d.Reaches p) (hx : x ∈ d.inside p) : d.earlier x =
    d.earlier p ++ d.entry p ++ (d.tree.preceding x).flatMap d.reachedFrom := by
  rw [earlier, earlier, hp.ancestors_of_inside hroot hx, List.reverse_cons, List.flatMap_append,
    List.flatMap_singleton, ← List.append_assoc]

/-- Synthesis reaches the earlier blocks, then those from the block on. -/
theorem Reaches.exists_reached_eq (h : d.Reaches x) :
    ∃ later, d.reached = d.earlier x ++ d.reachedFrom x ++ later := by
  induction h with
  | @top x b hx hb hactive =>
    obtain ⟨behind, hrow⟩ := Tree.exists_members_eq hx
    refine ⟨behind.flatMap d.reachedFrom, ?_⟩
    rw [reached_eq_flatMap, hrow, earlier, ancestors_of_top hroot hx,
      List.flatMap_append, List.flatMap_cons, List.reverse_nil, List.flatMap_nil, List.nil_append,
      List.append_assoc]
  | @within p x g b hp hg hgroup hx hb hactive ih =>
    obtain ⟨later, ih⟩ := ih
    obtain ⟨behind, hrow⟩ := exists_inside_eq hx
    refine ⟨behind.flatMap d.reachedFrom ++ later, ?_⟩
    rw [ih, hp.earlier_of_inside hroot hx, hp.reachedFrom_eq hroot hg, if_pos hgroup, hrow, entry,
      hg]
    simp

/-- **No block is reached twice.** -/
theorem nodup_reached : (d.reached.map Prod.fst).Nodup := by
  rw [reached, List.map_flatMap]
  exact (Tree.nodup_forest hroot).sublist
    (List.Sublist.flatMap_right _ fun b _ => b.reached_sublist.map Prod.fst)

/-- **The blocks before a block are the earlier ones.** -/
theorem reached_eq {before after : List (NodeId × Block R S)}
    (h : d.reached = before ++ (x, b) :: after) : before = d.earlier x := by
  have hmem : (x, b) ∈ d.reached := by simp [h]
  have hx := reaches_of_mem_reached hmem
  obtain ⟨later, hlater⟩ := hx.exists_reached_eq hroot
  rw [hx.reachedFrom_eq hroot (get?_of_mem_reached hmem), List.append_assoc, List.cons_append, h]
    at hlater
  have hnodup : (before ++ (x, b) :: after).Nodup := h ▸ (d.nodup_reached hroot).of_map Prod.fst
  obtain ⟨hout, -⟩ := List.nodup_cons.mp (List.nodup_middle.mp hnodup)
  obtain ⟨hbefore, hafter⟩ := not_or.mp (mt List.mem_append.mpr hout)
  exact ((List.append_cons_inj_of_notMem hbefore hafter).mp hlater).1

end Rooted

end Document

end Toolpath
