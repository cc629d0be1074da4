import Mathlib.Data.List.Nodup
import Toolpath.Proofs.Tree.Walks

/-!
# Below the outermost nodes

A tree may have cycles, and still there is none below a node without a parent: the way up from there
ends at that node. So what is below such a node is a tree in the plain sense. The nodes around
it are found with the fuel that there is, and no node is met twice on the way through the subtrees,
since the way up from a node meets one of two siblings at most.

## Main definitions

* `Tree.names` — the names in a branch

## Main results

* `Tree.not_belowItself_of_outermost`, `Tree.ancestors_of_outermost` — there are no cycles below a
  node without a parent
* `Tree.nodup_forest` — the nodes below a list without an owner, each of them once
-/

namespace Toolpath

namespace Tree

open Links

variable {α : Type} {t : Tree α} {levels : Nat} {top x y z : NodeId}

/-- The names in a branch. -/
def names (b : Branch (NodeId × α)) : List NodeId := b.labels.map Prod.fst

/-- **What is below a node without a parent is not below itself.** -/
theorem not_belowItself_of_outermost (htop : t.parent? top = none)
    (hx : t.links.Descends levels top x) : ¬ t.links.BelowItself x := by
  induction levels generalizing x with
  | zero =>
    obtain rfl : top = x := hx
    rintro ⟨below, hself⟩
    obtain ⟨z, -, y, hzy, rfl⟩ := descends_add.mp hself
    rw [parent?_eq_some_iff.mpr hzy] at htop
    cases htop
  | succ levels ih =>
    obtain ⟨w, hw, y, hwy, rfl⟩ := descends_add.mp hx
    exact t.sound.not_belowItself_of_isChild (ih hw) hwy

/-- **The nodes around a node** below one without a parent. -/
theorem ancestors_of_outermost (htop : t.parent? top = none) (halive : t.links.contains top)
    (hx : t.links.Descends levels top x) :
    t.ancestors x =
      match t.parent? x with
      | none => []
      | some p => p :: t.ancestors p := by
  refine ancestors_of_shallow fun z hz hdeep => ?_
  have hself : ¬ t.links.BelowItself top :=
    not_belowItself_of_outermost htop (show t.links.Descends 0 top top from rfl)
  have hlevels : levels < t.links.nodes.nextKey :=
    Nat.lt_of_not_le fun hle => hself (t.sound.descends_self_of_deep halive hle hx)
  -- the way up from the node passes the outermost one and ends there
  obtain ⟨above, habove⟩ := Nat.exists_eq_add_of_lt hlevels
  rw [habove, show levels + above + 1 = (above + 1) + levels by omega, descends_add] at hdeep
  obtain ⟨y, hzy, hyx⟩ := hdeep
  obtain rfl := t.sound.eq_of_descends hx hyx
  obtain ⟨w, -, v, hwv, rfl⟩ := descends_add.mp hzy
  rw [parent?_eq_some_iff.mpr hwv] at htop
  cases htop

theorem parent?_of_mem {l : ListId} (hx : x ∈ t.members l) : t.parent? x = t.owner? l := by
  have hl : t.listOf? x = some l := t.sound.holds.listOf?_eq_some_iff.mpr hx
  rw [parent?, hl]
  rfl

/-! ### No node is met twice -/

/-- **Nothing is below two siblings.** -/
theorem eq_of_descends_of_siblings (hsame : t.parent? x = t.parent? y)
    (hself : ∀ p, t.parent? x = some p → ¬ t.links.BelowItself p) {a b : Nat}
    (hx : t.links.Descends a x z) (hy : t.links.Descends b y z) : x = y := by
  wlog hab : a ≤ b generalizing a b x y
  · exact (this hsame.symm (hsame ▸ hself) hy hx (Nat.le_of_not_le hab)).symm
  obtain ⟨k, rfl⟩ := Nat.exists_eq_add_of_le' hab
  obtain ⟨w, hyw, hwz⟩ := descends_add.mp hy
  obtain rfl := t.sound.eq_of_descends hx hwz
  cases k with
  | zero => exact hyw.symm
  | succ k =>
    -- the one would be below the other, and so their parent below itself
    obtain ⟨p, hyp, v, hpv, rfl⟩ := descends_add.mp hyw
    have hparent := parent?_eq_some_iff.mpr hpv
    have hpy := parent?_eq_some_iff.mp (hsame ▸ hparent)
    exact absurd ⟨k, y, hpy, hyp⟩ (hself p hparent)

theorem descends_of_mem_labels {fuel : Nat} {a : α} {b : Branch (NodeId × α)}
    (h : t.branchTo fuel x = some b) (hy : (y, a) ∈ b.labels) :
    ∃ levels, t.links.Descends levels x y := by
  induction fuel generalizing x b with
  | zero => cases h
  | succ fuel ih =>
    obtain ⟨n, hn, rfl⟩ := Option.map_eq_some_iff.mp h
    rw [Branch.labels_node] at hy
    rcases List.mem_cons.mp hy with hy | hy
    · exact ⟨0, (Prod.mk.inj hy).1.symm⟩
    · obtain ⟨bs, hbs, hy⟩ := List.mem_flatMap.mp hy
      obtain ⟨l, hl, rfl⟩ := List.mem_map.mp hbs
      obtain ⟨c, hc, hy⟩ := List.mem_flatMap.mp hy
      obtain ⟨z, hz, hzc⟩ := List.mem_filterMap.mp hc
      obtain ⟨levels, hlevels⟩ := ih hzc hy
      exact ⟨levels + 1, z, ⟨n, l, hn, hl, hz⟩, hlevels⟩

/-- The names in the branches of siblings, each of them once. -/
theorem nodup_of_siblings {fuel : Nat} {xs : List NodeId} (hxs : xs.Nodup)
    (hsame : ∀ x ∈ xs, ∀ y ∈ xs, t.parent? x = t.parent? y)
    (hself : ∀ x ∈ xs, ∀ p, t.parent? x = some p → ¬ t.links.BelowItself p)
    (hnodup : ∀ x ∈ xs, ∀ b, t.branchTo fuel x = some b → (names b).Nodup) :
    ((xs.filterMap (t.branchTo fuel)).flatMap names).Nodup := by
  rw [flatMap_filterMap, List.nodup_flatMap]
  refine ⟨fun x hx => ?_, hxs.imp_of_mem fun {x y} hx hy hne => ?_⟩
  · cases hb : t.branchTo fuel x with
    | none => exact List.nodup_nil
    | some b => exact hnodup x hx b hb
  · intro z hzx hzy
    have hbelow {x : NodeId} (hz : z ∈ ((t.branchTo fuel x).map names).getD []) :
        ∃ levels, t.links.Descends levels x z := by
      cases hb : t.branchTo fuel x with
      | none => rw [hb] at hz; cases hz
      | some b =>
        rw [hb] at hz
        obtain ⟨⟨z, a⟩, hmem, rfl⟩ := List.mem_map.mp hz
        exact descends_of_mem_labels hb hmem
    obtain ⟨a, ha⟩ := hbelow hzx
    obtain ⟨b, hb⟩ := hbelow hzy
    exact hne (eq_of_descends_of_siblings (hsame x hx y hy) (hself x hx) ha hb)

/-- The names in a branch, each of them once, if nothing there is below itself. -/
theorem nodup_branchTo {fuel : Nat} {b : Branch (NodeId × α)} (hb : t.branchTo fuel x = some b)
    (hbelow : ∀ levels y, t.links.Descends levels x y → ¬ t.links.BelowItself y) :
    (names b).Nodup := by
  induction fuel generalizing x b with
  | zero => cases hb
  | succ fuel ih =>
    obtain ⟨n, hn, rfl⟩ := Option.map_eq_some_iff.mp hb
    have hself := hbelow 0 x rfl
    have hchild {y : NodeId} (hy : y ∈ n.lists.flatMap t.members) : t.links.IsChild x y := by
      obtain ⟨l, hl, hy⟩ := List.mem_flatMap.mp hy
      exact ⟨n, l, hn, hl, hy⟩
    have hparent {y : NodeId} (hy : y ∈ n.lists.flatMap t.members) : t.parent? y = some x :=
      parent?_eq_some_iff.mpr (hchild hy)
    have hmembers : (n.lists.flatMap t.members).Nodup := by
      refine List.nodup_flatMap.mpr ⟨fun l _ => t.sound.holds.nodup l, ?_⟩
      refine (t.sound.owned.nodup hn).imp fun hne y hy hy' => hne ?_
      exact t.sound.holds.eq_of_mem hy hy'
    have hnames : names (.node (x, n.item)
        (n.lists.map fun l => (t.members l).filterMap (t.branchTo fuel))) =
        x :: ((n.lists.flatMap t.members).filterMap (t.branchTo fuel)).flatMap names := by
      simp only [names, Branch.labels_node, List.map_cons, List.flatMap_map, List.map_flatMap,
        List.filterMap_flatMap, List.flatMap_assoc]
      rfl
    rw [hnames, List.nodup_cons]
    constructor
    · intro hmem
      obtain ⟨c, hc, hmem⟩ := List.mem_flatMap.mp hmem
      obtain ⟨y, hy, hyc⟩ := List.mem_filterMap.mp hc
      obtain ⟨⟨x, a⟩, hlabel, rfl⟩ := List.mem_map.mp hmem
      obtain ⟨k, hk⟩ := descends_of_mem_labels hyc hlabel
      exact hself ⟨k, y, hchild hy, hk⟩
    · refine nodup_of_siblings hmembers (fun y hy z hz => ?_) (fun y hy p hp => ?_)
        (fun y hy c hc => ?_)
      · rw [hparent hy, hparent hz]
      · obtain rfl := Option.some.inj ((hparent hy).symm.trans hp)
        exact hself
      · exact ih hc fun levels z hz => hbelow (levels + 1) z ⟨y, hchild hy, hz⟩

/-- **The nodes below a list without an owner**, each of them once. -/
theorem nodup_forest {l : ListId} (hl : t.owner? l = none) :
    ((t.forest l).flatMap names).Nodup := by
  have houter {y : NodeId} (hy : y ∈ t.members l) : t.parent? y = none :=
    (parent?_of_mem hy).trans hl
  refine nodup_of_siblings (t.sound.holds.nodup l) (fun y hy z hz => ?_) (fun y hy p hp => ?_)
    (fun y hy b hb => ?_)
  · rw [houter hy, houter hz]
  · rw [houter hy] at hp
    cases hp
  · exact nodup_branchTo hb fun levels z => not_belowItself_of_outermost (houter hy)

end Tree

end Toolpath
