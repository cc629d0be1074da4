import Mathlib.Data.Fintype.Pigeonhole
import Toolpath.Tree.Copying

/-!
# How deep a node goes

A node has at most one parent, so a way up is determined by where it starts. A way down that is
longer than there are nodes meets a node twice, and going up from there by the same number of levels
leads back to the top: the top is below itself. So a node that is not below itself has fewer levels
than there are nodes, wherever else in the store there are cycles.

## Main results

* `Links.Sound.eq_of_descends` — the way up is unique
* `Links.Sound.descends_self_of_deep` — what is deeper than there are nodes is below itself
* `Links.Sound.settles_duplicateWith` — what is not below itself has a copy
-/

namespace Toolpath

namespace Links

variable {α : Type} {s : Links α}

/-- The node is somewhere below itself. -/
def BelowItself (s : Links α) (id : NodeId) : Prop := ∃ levels, s.Descends (levels + 1) id id

theorem Sound.eq_of_isChild (h : s.Sound) {x x' y : NodeId} (hx : s.IsChild x y)
    (hx' : s.IsChild x' y) : x = x' := by
  obtain ⟨n, l, hn, hl, hy⟩ := hx
  obtain ⟨n', l', hn', hl', hy'⟩ := hx'
  obtain rfl := h.holds.eq_of_mem hy hy'
  obtain ⟨-, r, hr, ho⟩ := h.owned.owned hn hl
  obtain ⟨-, r', hr', ho'⟩ := h.owned.owned hn' hl'
  obtain rfl := Option.some.inj (hr.symm.trans hr')
  exact Option.some.inj (ho.symm.trans ho')

theorem descends_add {a b : Nat} {x z : NodeId} :
    s.Descends (a + b) x z ↔ ∃ y, s.Descends a x y ∧ s.Descends b y z := by
  induction a generalizing x with
  | zero => simp [Descends]
  | succ a ih =>
    rw [Nat.succ_add]
    constructor
    · rintro ⟨w, hw, hwz⟩
      obtain ⟨y, hwy, hyz⟩ := ih.mp hwz
      exact ⟨y, ⟨w, hw, hwy⟩, hyz⟩
    · rintro ⟨y, ⟨w, hw, hwy⟩, hyz⟩
      exact ⟨w, hw, ih.mpr ⟨y, hwy, hyz⟩⟩

/-- **The way up is unique.** -/
theorem Sound.eq_of_descends (h : s.Sound) {levels : Nat} {x x' y : NodeId}
    (hx : s.Descends levels x y) (hx' : s.Descends levels x' y) : x = x' := by
  induction levels generalizing y with
  | zero => exact hx.trans hx'.symm
  | succ levels ih =>
    obtain ⟨w, hxw, z, hwy, rfl⟩ := descends_add.mp hx
    obtain ⟨w', hxw', z', hwy', rfl⟩ := descends_add.mp hx'
    obtain rfl := h.eq_of_isChild hwy hwy'
    exact ih hxw hxw'

theorem Sound.contains_of_descends (h : s.Sound) {levels : Nat} {x y : NodeId}
    (hx : s.contains x) (hy : s.Descends levels x y) : s.contains y := by
  induction levels generalizing x with
  | zero => exact hy ▸ hx
  | succ levels ih =>
    obtain ⟨z, hz, hzy⟩ := hy
    exact ih (h.contains_of_isChild hz) hzy

theorem key_lt_of_contains {x : NodeId} (h : s.contains x) : x.key < s.nodes.nextKey := by
  obtain ⟨n, hn⟩ := Option.isSome_iff_exists.mp h
  exact Arena.lt_nextKey_of_get? hn

/-- **What is deeper than there are nodes is below itself.** -/
theorem Sound.descends_self_of_deep (h : s.Sound) {levels : Nat} {x y : NodeId}
    (halive : s.contains x) (hlevels : s.nodes.nextKey ≤ levels) (hy : s.Descends levels x y) :
    s.BelowItself x := by
  -- one node for every level that is passed, and fewer names than levels
  have hpass (i : Fin (levels + 1)) : ∃ z, s.Descends i x z := by
    obtain ⟨k, hk⟩ := Nat.exists_eq_add_of_le (Nat.le_of_lt_succ i.isLt)
    rw [hk, descends_add] at hy
    obtain ⟨z, hz, -⟩ := hy
    exact ⟨z, hz⟩
  choose z hz using hpass
  have hkey (i : Fin (levels + 1)) : (z i).key < s.nodes.nextKey :=
    key_lt_of_contains (h.contains_of_descends halive (hz i))
  obtain ⟨i, j, hne, hij⟩ := Fintype.exists_ne_map_eq_of_card_lt
    (fun i => (⟨(z i).key, hkey i⟩ : Fin s.nodes.nextKey))
    (by simpa using Nat.lt_succ_of_le hlevels)
  wlog hlt : i < j generalizing i j
  · exact this j i hne.symm hij.symm (lt_of_le_of_ne (not_lt.mp hlt) hne.symm)
  have hsame : z i = z j := by
    have hkeys : (z i).key = (z j).key := congrArg Fin.val hij
    cases hi : z i
    cases hj : z j
    rw [hi, hj] at hkeys
    exact congrArg NodeId.mk hkeys
  obtain ⟨k, hk⟩ := Nat.exists_eq_add_of_lt (Fin.lt_def.mp hlt)
  have hj := hz j
  rw [hk, show (i : Nat) + k + 1 = (k + 1) + i by omega, descends_add] at hj
  obtain ⟨w, hw, hwz⟩ := hj
  obtain rfl := h.eq_of_descends (hsame ▸ hz i) hwz
  exact ⟨k, hw⟩

/-- What is below itself has its parent below itself, so a child of another node is not. -/
theorem Sound.not_belowItself_of_isChild (h : s.Sound) {x y : NodeId} (hx : ¬ s.BelowItself x)
    (hxy : s.IsChild x y) : ¬ s.BelowItself y := by
  rintro ⟨levels, hself⟩
  obtain ⟨z, hyz, y, hzy, rfl⟩ := descends_add.mp hself
  obtain rfl := h.eq_of_isChild hxy hzy
  exact hx ⟨levels, y, hxy, hyz⟩

theorem Sound.not_belowItself_of_loose (h : s.Sound) {id : NodeId} (hid : s.listOf? id = none) :
    ¬ s.BelowItself id := by
  rintro ⟨levels, hself⟩
  obtain ⟨-, -, z, ⟨-, l, -, -, hmem⟩, rfl⟩ := descends_add.mp hself
  exact h.holds.not_mem_of_listOf? hid l hmem

/-- **A node that is not below itself has a copy.** -/
theorem Sound.settles_duplicateWith (h : s.Sound) {id : NodeId}
    (hid : ¬ s.BelowItself id) (f : α → α) : Settles (s.duplicateWith id f) := by
  rcases duplicateTo_spec f (s.nodes.nextKey + 1) h id with ⟨-, y, hy⟩ | ⟨⟨c, s'⟩, hs', hsound, -⟩
  · have halive : s.contains id := by
      obtain ⟨-, ⟨n, -, hn, -⟩, -⟩ := hy
      rw [contains, hn]; rfl
    exact absurd (h.descends_self_of_deep halive (Nat.le_succ _) hy) hid
  · exact ⟨c, s', hs', hsound⟩

end Links

end Toolpath
