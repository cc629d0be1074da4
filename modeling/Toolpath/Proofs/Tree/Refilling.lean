import Toolpath.Proofs.Tree.Attaching
import Toolpath.Proofs.Tree.Barriers

/-!
# Lists that are filled anew

A list is emptied, and single nodes are put into it. What was within the list is gone, however deep
it was, and all else is as it was, down to its links. That is more than is said of a tree that has
lost something and has been added to: there the links of a node may have changed with the siblings
beside it. Here no node that is left has lost a sibling. One that is gone was a member of the list,
or of a list of something that is gone, and such a list is gone as well.

## Main definitions

* `Tree.Within` — to be a member of a list, or below one
* `Tree.Emptied` — a tree without what was within a list
* `Tree.Refilled` — and with other members in it

## Main results

* `Tree.emptied_of_loses` — what emptying a list leaves
* `Tree.Emptied.refill` — what is left when single nodes are attached there
-/

namespace Toolpath

namespace Links

variable {α : Type} {s s' : Links α} {l k : ListId}

/-- What was in a list that is empty now is gone. -/
theorem Shrinks.gone_of_empty (h : s.Shrinks s') (hempty : s'.members l = []) {x : NodeId}
    (hx : x ∈ s.members l) : s'.contains x = false := by
  rw [h.members] at hempty
  exact Bool.eq_false_iff.mpr (List.filter_eq_nil_iff.mp hempty x hx)

/-- A list that is left, and is not the one that was emptied, has lost nothing. -/
theorem Shrinks.members_eq (h : s.Shrinks s') (hs : s.Sound) (hs' : s'.Sound)
    (hloses : s.Loses s' (· ∈ s.members l)) (hempty : s'.members l = []) (hk : (s'.list? k).isSome)
    (hne : k ≠ l) : s'.members k = s.members k := by
  rw [h.members, List.filter_eq_self]
  intro x hx
  by_contra hgone
  have halive := (hs.holds.alive k x hx).1
  cases hloses x halive (Bool.eq_false_iff.mpr hgone) with
  | top hmem => exact hne (hs.holds.eq_of_mem hx hmem)
  | @member _ o j r hj hr ho hunder =>
    obtain rfl := hs.holds.eq_of_mem hx hj
    -- the owner would be gone with the node, and with it the list
    have hleft := ((h.isSome_list?_iff hs hs').mp hk).2 o
      (Option.bind_eq_some_iff.mpr ⟨r, hr, ho⟩)
    have hdead := h.gone_of_under hs' (fun y hy => h.gone_of_empty hempty hy) hunder
    exact Bool.false_ne_true (hdead.symm.trans hleft)

end Links

namespace Tree

open Links

variable {α : Type} {t u v : Tree α} {l k : ListId} {x : NodeId}

/-! ### Emptying -/

/-- A node is a member of a list, or so many levels below one. -/
def Within (t : Tree α) (l : ListId) (x : NodeId) : Prop :=
  ∃ top ∈ t.members l, ∃ levels, t.links.Descends levels top x

/-- A node that is not below itself is not within one of its lists. -/
theorem not_within (hself : ¬ t.links.BelowItself x) (hl : l ∈ t.childLists x) :
    ¬ t.Within l x := by
  rintro ⟨top, htop, levels, hlevels⟩
  cases hn : t.node? x with
  | none =>
    rw [childLists, hn] at hl
    cases hl
  | some n => exact hself ⟨levels, top, ⟨n, l, hn, childLists_of_node? hn ▸ hl, htop⟩, hlevels⟩

/-- The second tree is the first one without what was within a list. -/
structure Emptied (t u : Tree α) (l : ListId) : Prop where
  /-- Nothing is in the list. -/
  members : u.members l = []
  /-- What is left is what was not within the list, -/
  contains : ∀ x, u.contains x ↔ t.contains x ∧ ¬ t.Within l x
  /-- with its item, its lists and its links. -/
  node : ∀ x, u.contains x → u.node? x = t.node? x
  /-- The lists that are left are those of nodes that are left, and those of no node, -/
  lists : ∀ k, (u.list? k).isSome ↔
    (t.list? k).isSome ∧ ∀ o, t.owner? k = some o → ¬ t.Within l o
  /-- with their owners -/
  owner : ∀ k, (u.list? k).isSome → u.owner? k = t.owner? k
  /-- and, but for the one, with their members. -/
  others : ∀ k, k ≠ l → (u.list? k).isSome → u.list? k = t.list? k ∧ u.members k = t.members k
  /-- No node is made. -/
  counted : u.links.nodes.nextKey = t.links.nodes.nextKey

theorem Emptied.newer (h : t.Emptied u l) : t.links.Newer u.links where
  next := h.counted.ge
  made := fun x hx => .inl ((h.contains x).mp hx).1

/-- **What emptying a list leaves.** -/
theorem emptied_of_loses (h : t.links.Shrinks u.links)
    (hloses : t.links.Loses u.links (· ∈ t.members l)) (hempty : u.members l = []) :
    t.Emptied u l := by
  have hunder (y : NodeId) : t.links.Under (· ∈ t.members l) y ↔ t.Within l y :=
    t.sound.under_iff
  have hcontains (y : NodeId) : u.contains y ↔ t.contains y ∧ ¬ t.Within l y := by
    constructor
    · intro hy
      refine ⟨h.contains hy, fun hwithin => ?_⟩
      have hdead := h.gone_of_under u.sound (fun z hz => h.gone_of_empty hempty hz)
        ((hunder y).mpr hwithin)
      exact Bool.false_ne_true (hdead.symm.trans hy)
    · rintro ⟨hy, hout⟩
      by_contra hdead
      exact hout ((hunder y).mp (hloses y hy (Bool.eq_false_iff.mpr hdead)))
  have hmembers {k : ListId} (hne : k ≠ l) (hk : (u.list? k).isSome) : u.members k = t.members k :=
    h.members_eq t.sound u.sound hloses hempty hk hne
  constructor
  case members => exact hempty
  case contains => exact hcontains
  case node =>
    intro y hy
    obtain ⟨n, hn⟩ := Option.isSome_iff_exists.mp hy
    obtain ⟨m, hm, hitem, hlists⟩ := h.node hn
    refine hn.trans (Eq.trans (congrArg some ?_) hm.symm)
    refine (t.sound.holds.node y m hm).eq (u.sound.holds.node y n hn) hitem.symm hlists.symm
      fun k hk => ?_
    -- the node is still where it was, and so not in the list that was emptied
    have hmem : y ∈ u.links.members k :=
      hk.elim (fun hk => h.members k ▸ List.mem_filter.mpr ⟨hk, hy⟩) id
    refine hmembers ?_ (u.sound.holds.alive k y hmem).2
    rintro rfl
    exact List.not_mem_nil (show y ∈ ([] : List NodeId) from hempty ▸ hmem)
  case lists =>
    intro k
    rw [list?, h.isSome_list?_iff t.sound u.sound]
    refine and_congr_right fun hk => forall₂_congr fun o ho => ?_
    rw [← contains, hcontains]
    obtain ⟨r, hr, hro⟩ := Option.bind_eq_some_iff.mp ho
    exact and_iff_right (t.sound.contains_of_owner hr hro)
  case owner =>
    intro k hk
    obtain ⟨r, hr⟩ := Option.isSome_iff_exists.mp hk
    obtain ⟨q, hq, ho⟩ := h.list hr
    rw [owner?, owner?, hr, list?, hq, Option.bind_some, Option.bind_some, ho]
  case others =>
    intro k hne hk
    obtain ⟨r, hr⟩ := Option.isSome_iff_exists.mp hk
    obtain ⟨q, hq, ho⟩ := h.list hr
    have hrow := hmembers hne hk
    refine ⟨hr.trans (Eq.trans (congrArg some ?_) hq.symm), hrow⟩
    have hends : Ends (t.members k) r := hrow ▸ u.sound.holds.list k r hr
    exact (t.sound.holds.list k q hq).eq hends ho.symm
  case counted => exact h.counted

/-! ### Filling -/

/-- The second tree is the first one with a list filled anew. -/
structure Refilled (t u : Tree α) (l : ListId) (items : List α) : Prop where
  /-- The list passes its own check. -/
  validate : u.validate l = true
  /-- It has one member for each item, in their order, -/
  items : (u.members l).map u.get? = items.map some
  /-- none of which was there before -/
  fresh : ∀ x ∈ u.members l, t.contains x = false
  /-- and none of which has a list. -/
  leaf : ∀ x ∈ u.members l, u.childLists x = []
  /-- All else that there is was there and not within the list, -/
  contains : ∀ x, u.contains x ↔ x ∈ u.members l ∨ t.contains x ∧ ¬ t.Within l x
  /-- and has its item, its lists and its links. -/
  node : ∀ x, t.contains x → ¬ t.Within l x → u.node? x = t.node? x
  /-- The lists are those that were there, but for those of nodes that were within the list. -/
  lists : ∀ k, (u.list? k).isSome ↔
    (t.list? k).isSome ∧ ∀ o, t.owner? k = some o → ¬ t.Within l o
  /-- They are as they were, with their members, except the one, -/
  others : ∀ k, k ≠ l → (u.list? k).isSome → u.list? k = t.list? k ∧ u.members k = t.members k
  /-- which has its owner. -/
  owner : u.owner? l = t.owner? l

/-- Nodes that show branches without lists have none. -/
theorem leaf_of_shows {ids : List NodeId} {bs : List (Branch α)}
    (h : List.Forall₂ t.links.Shows ids bs) (hbs : ∀ b ∈ bs, b.lists = []) :
    ids.map t.get? = (bs.map Branch.label).map some ∧ ∀ x ∈ ids, t.childLists x = [] := by
  induction h with
  | nil => exact ⟨rfl, List.forall_mem_nil _⟩
  | @cons x b ids bs hshows _ ih =>
    obtain ⟨hb, hrest⟩ := List.forall_mem_cons.mp hbs
    obtain ⟨hitems, hleaf⟩ := ih hrest
    cases b with
    | node a ls =>
      obtain rfl : ls = [] := hb
      obtain ⟨n, hn, hitem, hlists⟩ := shows_node_iff.mp hshows
      have hget : t.get? x = some a := (get?_of_node? hn).trans (congrArg some hitem)
      have hnone : t.childLists x = [] :=
        (childLists_of_node? hn).trans (List.forall₂_nil_right_iff.mp hlists)
      exact ⟨congrArg₂ List.cons hget hitems, List.forall_mem_cons.mpr ⟨hnone, hleaf⟩⟩

/-- Nothing is below a node without lists. -/
theorem eq_of_descends {y : NodeId} {levels : Nat} (hx : t.childLists x = [])
    (h : t.links.Descends levels x y) : x = y := by
  cases levels with
  | zero => exact h
  | succ levels =>
    obtain ⟨z, ⟨n, k, hn, hk, -⟩, -⟩ := h
    have hlists : t.childLists x = n.lists := childLists_of_node? hn
    rw [← hlists, hx] at hk
    cases hk

section Adds

variable {ids : List NodeId} {bs : List (Branch α)}

/-- What was there is as it was, if the list had no members. -/
theorem Adds.node?_eq (h : u.Adds v l ids bs) (hempty : u.members l = []) (hx : u.contains x) :
    v.node? x = u.node? x := by
  obtain ⟨n, hn⟩ := Option.isSome_iff_exists.mp hx
  obtain ⟨m, hm, hitem, hlists, hlist⟩ := h.node hn
  have hfits := u.sound.holds.node x n hn
  refine hm.trans (Eq.trans (congrArg some ?_) hn.symm)
  refine hfits.eq (v.sound.holds.node x m hm) hitem hlists fun k hk => ?_
  have hmem : x ∈ u.members k := hk.elim id fun hk =>
    (hfits.list k).mp (hlist ▸ ((v.sound.holds.node x m hm).list k).mpr hk)
  refine h.others k (u.sound.holds.alive k x hmem).2 ?_
  rintro rfl
  rw [hempty] at hmem
  cases hmem

/-- Another list is as it was. -/
theorem Adds.list?_eq (h : u.Adds v l ids bs) (hk : (u.list? k).isSome) (hne : k ≠ l) :
    v.list? k = u.list? k := by
  obtain ⟨r, hr⟩ := Option.isSome_iff_exists.mp hk
  obtain ⟨q, hq, ho⟩ := h.list hr
  have hends : Ends (u.members k) q := h.others k hk hne ▸ v.sound.holds.list k q hq
  refine hq.trans (Eq.trans (congrArg some ?_) hr.symm)
  exact (u.sound.holds.list k r hr).eq hends ho

/-- The list has its owner. -/
theorem Adds.owner?_eq (h : u.Adds v l ids bs) : v.owner? l = u.owner? l := by
  obtain ⟨r, hr⟩ := Option.isSome_iff_exists.mp h.target
  obtain ⟨q, hq, ho⟩ := h.list hr
  rw [owner?, owner?, hr, list?, hq, Option.bind_some, Option.bind_some, ho]

/-- All that single nodes add are the nodes. -/
theorem Adds.contains_iff (h : u.Adds v l ids bs) (hleaf : ∀ x ∈ ids, v.childLists x = []) :
    v.contains x ↔ x ∈ ids ∨ u.contains x := by
  constructor
  · intro hx
    rcases h.covered x hx with hx | ⟨top, htop, levels, hlevels⟩
    · exact .inr hx
    · exact .inl (eq_of_descends (hleaf top htop) hlevels ▸ htop)
  · rintro (hx | hx)
    · have hmem : x ∈ v.members l := h.members ▸ List.mem_append_right _ hx
      exact (v.sound.holds.alive l x hmem).1
    · exact h.contains hx

/-- **Single nodes put into a list that was emptied** fill it anew. -/
theorem Emptied.refill (h : t.Emptied u l) (hadds : u.Adds v l ids bs)
    (hbs : ∀ b ∈ bs, b.lists = []) (hnewer : u.links.Newer v.links)
    (hlists : ∀ k, (v.list? k).isSome = (u.list? k).isSome) :
    t.Refilled v l (bs.map Branch.label) := by
  have hmembers : v.members l = ids := by rw [hadds.members, h.members, List.nil_append]
  obtain ⟨hitems, hleaf⟩ := leaf_of_shows hadds.shows hbs
  constructor
  case validate => exact v.sound.holds.validate_eq_true ((hlists l).trans hadds.target)
  case items => rw [hmembers, hitems]
  case fresh =>
    intro x hx
    have hout : u.contains x = false := hadds.fresh x (hmembers ▸ hx)
    refine Bool.eq_false_iff.mpr fun hbefore => ?_
    -- a name is not given to something else
    have hbetween := h.newer.contains_between hnewer hbefore (v.sound.holds.alive l x hx).1
    exact Bool.false_ne_true (hout.symm.trans hbetween)
  case leaf => exact hmembers ▸ hleaf
  case contains =>
    intro x
    rw [hadds.contains_iff hleaf, h.contains, hmembers]
  case node =>
    intro x hx hout
    have hleft := (h.contains x).mpr ⟨hx, hout⟩
    rw [hadds.node?_eq h.members hleft, h.node x hleft]
  case lists =>
    intro k
    rw [hlists, h.lists]
  case others =>
    intro k hne hk
    rw [hlists] at hk
    obtain ⟨hlist, hrow⟩ := h.others k hne hk
    exact ⟨(hadds.list?_eq hk hne).trans hlist, (hadds.others k hk hne).trans hrow⟩
  case owner => rw [hadds.owner?_eq, h.owner l hadds.target]

end Adds

/-- What was within the list is gone. -/
theorem Refilled.gone {items : List α} (h : t.Refilled u l items) (hx : t.Within l x) :
    u.contains x = false := by
  refine Bool.eq_false_iff.mpr fun hleft => ?_
  rcases (h.contains x).mp hleft with hmem | ⟨-, hout⟩
  · obtain ⟨top, htop, levels, hlevels⟩ := hx
    have hbefore := t.sound.contains_of_descends (t.sound.holds.alive l top htop).1 hlevels
    exact Bool.false_ne_true ((h.fresh x hmem).symm.trans hbefore)
  · exact hout hx

end Tree

end Toolpath
