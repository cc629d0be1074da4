import Toolpath.Proofs.Document.Acyclic
import Toolpath.Proofs.Document.Loops
import Toolpath.Proofs.Document.Scoping
import Toolpath.Proofs.Tree.Outermost

/-!
# What goes before a block

The blocks that go before a block are those before it in its list, and before these the ones before
its parent, and so on outward: read from the top level inward, they are what stands above the block
on the page. The search for a tool goes through them backwards. What it passes on the way, the
containers before the block and the siblings behind it, it never opens.

This is told in a tree without cycles. There the nodes around a node are its parent, the parent of
that, and so on up to the top level, and no two of them are siblings.

## Main definitions

* `Tree.foregoing` — the nodes that go before a node, from the top level inward

## Main results

* `Tree.mem_foregoing_iff` — they are the siblings before the node and before those around it
* `Tree.not_mem_foregoing_of_inside`, `Tree.not_mem_foregoing_of_behind` — what is not among them
* `Document.finds_last_foregoing` — the search ends with the last tool change among them
-/

namespace Toolpath

namespace Tree

open Links

variable {α : Type} {t : Tree α} {levels : Nat} {x y z a : NodeId} {l : ListId}

/-- The nodes that go before a node: those before the outermost node around it, then inward to those
before the node itself. -/
def foregoing (t : Tree α) (x : NodeId) : List NodeId :=
  (x :: t.ancestors x).reverse.flatMap t.preceding

/-! ### Siblings before a node -/

theorem preceding_of_members {before behind : List NodeId}
    (h : t.members l = before ++ x :: behind) : t.preceding x = before := by
  have hx : x ∈ t.members l := h ▸ List.mem_append_right _ List.mem_cons_self
  have hlist : t.listOf? x = some l := t.sound.holds.listOf?_eq_some_iff.mpr hx
  have hnodup : (before ++ x :: behind).Nodup := h ▸ t.sound.holds.nodup l
  have hout : ∀ y ∈ before, (y != x) = true := fun y hy =>
    bne_iff_ne.mpr fun he =>
      (List.nodup_cons.mp (List.nodup_middle.mp hnodup)).1 (List.mem_append_left _ (he ▸ hy))
  rw [preceding, hlist]
  show (t.members l).takeWhile (· != x) = before
  rw [h, List.takeWhile_append_of_pos hout, List.takeWhile_cons_of_neg (by simp), List.append_nil]

/-- A node that precedes another one is a sibling of it, and it is not preceded by it. -/
theorem of_mem_preceding (h : y ∈ t.preceding x) :
    t.parent? y = t.parent? x ∧ y ≠ x ∧ x ∉ t.preceding y := by
  cases hl : t.listOf? x with
  | none => rw [preceding, hl] at h; cases h
  | some l =>
    have hx : x ∈ t.members l := t.sound.holds.listOf?_eq_some_iff.mp hl
    obtain ⟨behind, hrow⟩ := exists_members_eq hx
    obtain ⟨before, between, hsplit⟩ := List.append_of_mem h
    rw [hsplit, List.append_assoc, List.cons_append] at hrow
    have hy : y ∈ t.members l := by simp [hrow]
    have hnodup : (before ++ y :: (between ++ x :: behind)).Nodup := hrow ▸ t.sound.holds.nodup l
    have hout : x ∉ before ++ [y] := fun hmem => by
      have := (List.nodup_append.mp (List.append_cons before y _ ▸ hnodup)).2.2 x hmem x (by simp)
      exact this rfl
    refine ⟨by rw [parent?_of_mem hy, parent?_of_mem hx], ?_, ?_⟩
    · rintro rfl
      exact hout (by simp)
    · rw [preceding_of_members hrow]
      exact fun hmem => hout (List.mem_append_left _ hmem)

/-! ### Nodes before a node -/

/-- **The nodes around a node** are those that it is below. -/
theorem mem_ancestors_iff (h : t.links.Acyclic) :
    a ∈ t.ancestors x ↔ ∃ levels, t.links.Descends (levels + 1) a x := by
  induction x using upward h with
  | top x hx =>
    rw [ancestors_eq h, hx]
    refine iff_of_false List.not_mem_nil ?_
    rintro ⟨levels, hlevels⟩
    obtain ⟨p, -, y, hpy, rfl⟩ := descends_add.mp hlevels
    rw [parent?_eq_some_iff.mpr hpy] at hx
    cases hx
  | step x p hp ih =>
    rw [ancestors_eq h, hp]
    show a ∈ p :: t.ancestors p ↔ _
    rw [List.mem_cons, ih]
    have hchild := parent?_eq_some_iff.mp hp
    constructor
    · rintro (rfl | ⟨levels, hlevels⟩)
      · exact ⟨0, x, hchild, rfl⟩
      · exact ⟨levels + 1, descends_add.mpr ⟨p, hlevels, x, hchild, rfl⟩⟩
    · rintro ⟨levels, hlevels⟩
      obtain ⟨q, hq, y, hqy, rfl⟩ := descends_add.mp hlevels
      obtain rfl := t.sound.eq_of_isChild hchild hqy
      cases levels with
      | zero => exact .inl hq
      | succ levels => exact .inr ⟨levels, hq⟩

/-- **The nodes that go before a node** are the siblings before it and before the nodes around
it. -/
theorem mem_foregoing_iff (h : t.links.Acyclic) :
    y ∈ t.foregoing x ↔ ∃ levels a, t.links.Descends levels a x ∧ y ∈ t.preceding a := by
  rw [foregoing, List.mem_flatMap]
  constructor
  · rintro ⟨a, ha, hy⟩
    rcases List.mem_cons.mp (List.mem_reverse.mp ha) with rfl | ha
    · exact ⟨0, a, rfl, hy⟩
    · obtain ⟨levels, hlevels⟩ := (mem_ancestors_iff h).mp ha
      exact ⟨levels + 1, a, hlevels, hy⟩
  · rintro ⟨levels, a, ha, hy⟩
    refine ⟨a, List.mem_reverse.mpr (List.mem_cons.mpr ?_), hy⟩
    cases levels with
    | zero => exact .inl ha
    | succ levels => exact .inr ((mem_ancestors_iff h).mpr ⟨levels, ha⟩)

/-- Of the nodes around a node and itself no two are siblings. -/
theorem eq_of_around (h : t.links.Acyclic) {b : NodeId} {levels' : Nat}
    (ha : t.links.Descends levels a x) (hb : t.links.Descends levels' b x)
    (hsame : t.parent? a = t.parent? b) : a = b :=
  eq_of_descends_of_siblings hsame (fun p _ => h p) ha hb

/-- **Nothing inside a node that goes before another one goes before that one.** -/
theorem not_mem_foregoing_of_inside (h : t.links.Acyclic) (hy : y ∈ t.foregoing x)
    (hz : t.links.Descends (levels + 1) y z) : z ∉ t.foregoing x := by
  intro hmem
  obtain ⟨_, a, ha, hya⟩ := (mem_foregoing_iff h).mp hy
  obtain ⟨_, b, hb, hzb⟩ := (mem_foregoing_iff h).mp hmem
  -- the parent of what is inside is around the node, and so is then the node that goes before it
  obtain ⟨p, hyp, z, hpz, rfl⟩ := descends_add.mp hz
  have hpb := parent?_eq_some_iff.mp ((of_mem_preceding hzb).1 ▸ parent?_eq_some_iff.mpr hpz)
  have hyx := descends_add.mpr ⟨p, hyp, descends_add (a := 1) |>.mpr ⟨b, ⟨b, hpb, rfl⟩, hb⟩⟩
  exact (of_mem_preceding hya).2.1 (eq_of_around h hyx ha (of_mem_preceding hya).1)

/-- **A sibling behind a node or behind one around it does not go before it.** -/
theorem not_mem_foregoing_of_behind (h : t.links.Acyclic) (ha : t.links.Descends levels a x)
    (hz : a ∈ t.preceding z) : z ∉ t.foregoing x := by
  intro hmem
  obtain ⟨_, b, hb, hzb⟩ := (mem_foregoing_iff h).mp hmem
  have hsame := (of_mem_preceding hz).1.trans (of_mem_preceding hzb).1
  obtain rfl := eq_of_around h ha hb hsame
  exact (of_mem_preceding hz).2.2 hzb

end Tree

namespace Document

variable {R S : Type} {d : Document R S} {x : NodeId}

/-- The search meets the blocks that go before a block, the last one first. -/
theorem scope_eq_reverse (d : Document R S) (x : NodeId) :
    d.scope x = (d.tree.foregoing x).reverse := by
  rw [scope, Tree.foregoing, List.reverse_flatMap, List.reverse_reverse]
  rfl

theorem findTool?_eq_findSome? (d : Document R S) (x : NodeId) :
    d.findTool? x = (d.tree.foregoing x).reverse.findSome? d.tool? := by
  rw [findTool?_eq, toolBlock?, ← findSome?_eq_find?, scope_eq_reverse]

theorem findTool?_eq_some_iff {tool : Tool R} :
    d.findTool? x = some tool ↔ ∃ before c behind, d.tree.foregoing x = before ++ c :: behind ∧
      d.tool? c = some tool ∧ ∀ y ∈ behind, d.tool? y = none := by
  rw [findTool?_eq_findSome?, List.findSome?_eq_some_iff]
  constructor
  · rintro ⟨behind, c, before, hsplit, hc, hnone⟩
    refine ⟨before.reverse, c, behind.reverse, ?_, hc, fun y hy => hnone y (List.mem_reverse.mp hy)⟩
    rw [← List.reverse_reverse (d.tree.foregoing x), hsplit]
    simp
  · rintro ⟨before, c, behind, hsplit, hc, hnone⟩
    refine ⟨behind.reverse, c, before.reverse, ?_, hc, fun y hy => hnone y (List.mem_reverse.mp hy)⟩
    rw [hsplit]
    simp

theorem findTool?_eq_none_iff :
    d.findTool? x = none ↔ ∀ y ∈ d.tree.foregoing x, d.tool? y = none := by
  rw [findTool?_eq_findSome?, List.findSome?_eq_none_iff]
  simp

/-- **The search for the tool of a block ends with the last tool change that goes before the
block**, or without a tool if there is none. Nothing inside a block that goes before it and nothing
behind it is among these, and in another document where they are the same the search ends alike. -/
theorem finds_last_foregoing (h : d.tree.links.Acyclic) (x : NodeId) :
    Answers (d.searchTool · x) (d.findTool? x) ∧
      (∀ tool, d.findTool? x = some tool ↔ ∃ before c behind,
        d.tree.foregoing x = before ++ c :: behind ∧ d.tool? c = some tool ∧
          ∀ y ∈ behind, d.tool? y = none) ∧
      (d.findTool? x = none ↔ ∀ y ∈ d.tree.foregoing x, d.tool? y = none) ∧
      (∀ y, y ∈ d.tree.foregoing x ↔
        ∃ levels a, d.tree.links.Descends levels a x ∧ y ∈ d.tree.preceding a) ∧
      (∀ y ∈ d.tree.foregoing x, ∀ levels z, d.tree.links.Descends (levels + 1) y z →
        z ∉ d.tree.foregoing x) ∧
      (∀ levels a z, d.tree.links.Descends levels a x → a ∈ d.tree.preceding z →
        z ∉ d.tree.foregoing x) ∧
      ∀ e : Document R S, e.tree.links.Acyclic → e.tree.foregoing x = d.tree.foregoing x →
        (∀ y ∈ d.tree.foregoing x, e.tool? y = d.tool? y) →
        Answers (e.searchTool · x) (d.findTool? x) := by
  refine ⟨answers_searchTool h x, fun tool => findTool?_eq_some_iff, findTool?_eq_none_iff,
    fun y => Tree.mem_foregoing_iff h, fun y hy levels z => Tree.not_mem_foregoing_of_inside h hy,
    fun levels a z => Tree.not_mem_foregoing_of_behind h, fun e he hsame htools => ?_⟩
  have hfind : e.findTool? x = d.findTool? x := by
    rw [findTool?_eq_findSome?, findTool?_eq_findSome?, hsame]
    exact findSome?_congr fun y hy => htools y (List.mem_reverse.mp hy)
  exact hfind ▸ answers_searchTool he x

/-- A tool change, a template with another one in it, a sketch with a line, and a third one. -/
def toolsAround : List (ListId × Block Double Single) :=
  let change (slot : UInt8) : Block Double Single :=
    { payload := .tool { Tool.standard with number := slot } }
  [(⟨0⟩, change 1), (⟨0⟩, { payload := .standard .template }), (⟨1⟩, change 2),
    (⟨0⟩, { payload := .standard .sketch }), (⟨2⟩, { payload := .standard .line }), (⟨0⟩, change 3)]

theorem finds_last_foregoing_toolsAround :
    let d := (new "tools").pushEach toolsAround
    d.tree.links.Acyclic ∧ d.tree.foregoing ⟨4⟩ = [⟨0⟩, ⟨1⟩] ∧ ⟨2⟩ ∉ d.tree.foregoing ⟨4⟩ ∧
      ⟨5⟩ ∉ d.tree.foregoing ⟨4⟩ ∧
      ∃ tool, tool.number = 1 ∧ Answers (d.searchTool · ⟨4⟩) (some tool) := by
  intro d
  have hacyclic : d.tree.links.Acyclic := acyclic_pushEach (acyclic_new _) (by decide +kernel)
  have hgoes : d.tree.foregoing ⟨4⟩ = [⟨0⟩, ⟨1⟩] := by decide +kernel
  have hfirst : (d.tool? ⟨0⟩).map Tool.number = some 1 := by decide +kernel
  have htemplate : d.tree.parent? ⟨2⟩ = some ⟨1⟩ := by decide +kernel
  have hsketch : d.tree.parent? ⟨4⟩ = some ⟨3⟩ := by decide +kernel
  obtain ⟨hends, hlast, -, -, hinside, hbehind, -⟩ := finds_last_foregoing hacyclic ⟨4⟩
  obtain ⟨tool, htool, hnumber⟩ := Option.map_eq_some_iff.mp hfirst
  have hnone : ∀ y ∈ [(⟨1⟩ : NodeId)], d.tool? y = none :=
    List.forall_mem_singleton.mpr (Option.isNone_iff_eq_none.mp (by decide +kernel))
  have hfound := (hlast tool).mpr ⟨[], ⟨0⟩, [⟨1⟩], hgoes, htool, hnone⟩
  refine ⟨hacyclic, hgoes, ?_, ?_, tool, hnumber, hfound ▸ hends⟩
  · exact hinside ⟨1⟩ (by simp [hgoes]) 0 ⟨2⟩ ⟨⟨2⟩, Tree.parent?_eq_some_iff.mp htemplate, rfl⟩
  · exact hbehind 1 ⟨3⟩ ⟨5⟩ ⟨⟨4⟩, Tree.parent?_eq_some_iff.mp hsketch, rfl⟩ (by decide +kernel)

end Document

end Toolpath
