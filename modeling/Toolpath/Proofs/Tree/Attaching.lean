import Toolpath.Proofs.Tree.Planting

/-!
# Attaching branches

Branches that are attached at the tail of a list come behind the members that are there, and nothing
else changes: what was there keeps its item, its lists and its place. The list may be owned by a
node, and this node may be anywhere. It is not below what is attached, since nothing that was there
came below something new.

## Main definitions

* `Links.Stays` — what was there keeps its item, its lists and its place
* `Tree.Adds` — a tree with branches attached

## Main results

* `Tree.adds_attach` — a branch that is planted and put at the tail of a list
* `Tree.Adds.trans` — branches attached one after the other
-/

namespace Toolpath

namespace Links

variable {α : Type} {s s' : Links α}

/-- What was there keeps its item, its lists and its place. -/
structure Stays (s s' : Links α) : Prop where
  /-- A node keeps its item, its lists and the list that it is in. -/
  node : ∀ {x n}, s.node? x = some n →
    ∃ m, s'.node? x = some m ∧ m.item = n.item ∧ m.lists = n.lists ∧ m.list = n.list
  /-- A list keeps its owner. -/
  list : ∀ {l r}, s.list? l = some r → ∃ q, s'.list? l = some q ∧ q.owner = r.owner

theorem Stays.refl (s : Links α) : s.Stays s :=
  ⟨fun hn => ⟨_, hn, rfl, rfl, rfl⟩, fun hr => ⟨_, hr, rfl⟩⟩

theorem Stays.trans {s'' : Links α} (h : s.Stays s') (h' : s'.Stays s'') : s.Stays s'' where
  node := fun hn => by
    obtain ⟨m, hm, hitem, hlists, hlist⟩ := h.node hn
    obtain ⟨k, hk, hitem', hlists', hlist'⟩ := h'.node hm
    exact ⟨k, hk, hitem'.trans hitem, hlists'.trans hlists, hlist'.trans hlist⟩
  list := fun hr => by
    obtain ⟨q, hq, ho⟩ := h.list hr
    obtain ⟨p, hp, ho'⟩ := h'.list hq
    exact ⟨p, hp, ho'.trans ho⟩

theorem Extends.stays (h : s.Extends s') : s.Stays s' :=
  ⟨fun hn => ⟨_, h.node hn, rfl, rfl, rfl⟩, fun hr => ⟨_, h.list hr, rfl⟩⟩

theorem Stays.contains (h : s.Stays s') {x : NodeId} (hx : s.contains x) : s'.contains x := by
  obtain ⟨n, hn⟩ := Option.isSome_iff_exists.mp hx
  obtain ⟨m, hm, -⟩ := h.node hn
  exact Option.isSome_iff_exists.mpr ⟨m, hm⟩

/-- The parent of something that was there was its parent. -/
theorem Stays.isChild_of_contains (h : s.Stays s') (hs : s.Sound) (hs' : s'.Sound) {x y : NodeId}
    (hy : s.contains y) (hxy : s'.IsChild x y) : s.IsChild x y := by
  obtain ⟨n, l, hn, hl, hmem⟩ := hxy
  obtain ⟨k, hk⟩ := Option.isSome_iff_exists.mp hy
  obtain ⟨m, hm, -, -, hlist⟩ := h.node hk
  have hmem' : y ∈ s.members l := by
    refine hs.holds.listOf?_eq_some_iff.mp ?_
    rw [listOf?, hk, Option.bind_some, ← hlist]
    exact ((hs'.holds.node y m hm).list l).mpr hmem
  obtain ⟨q, hq⟩ := Option.isSome_iff_exists.mp (hs.holds.alive l y hmem').2
  obtain ⟨p, hp, ho⟩ := h.list hq
  obtain ⟨-, r, hr, ho'⟩ := hs'.owned.owned hn hl
  obtain rfl := Option.some.inj (hr.symm.trans hp)
  obtain ⟨j, hj, hlists⟩ := hs.owned.listed hq (ho.symm.trans ho') List.not_mem_nil
  exact ⟨j, l, hj, hlists, hmem'⟩

/-- What is above something that was there was above it, -/
theorem Stays.descends_of_contains (h : s.Stays s') (hs : s.Sound) (hs' : s'.Sound) {levels : Nat}
    {x y : NodeId} (hy : s.contains y) (hxy : s'.Descends levels x y) :
    s.contains x ∧ s.Descends levels x y := by
  induction levels generalizing x with
  | zero => exact ⟨hxy ▸ hy, hxy⟩
  | succ levels ih =>
    obtain ⟨z, hz, hzy⟩ := hxy
    obtain ⟨halive, hdescends⟩ := ih hzy
    have hchild := h.isChild_of_contains hs hs' halive hz
    obtain ⟨n, -, hn, -⟩ := id hchild
    exact ⟨Option.isSome_iff_exists.mpr ⟨n, hn⟩, z, hchild, hdescends⟩

/-- and was there. -/
theorem Stays.contains_of_descends (h : s.Stays s') (hs : s.Sound) (hs' : s'.Sound) {levels : Nat}
    {x y : NodeId} (hy : s.contains y) (hxy : s'.Descends levels x y) : s.contains x :=
  (h.descends_of_contains hs hs' hy hxy).1

theorem Stays.not_belowItself (h : s.Stays s') (hs : s.Sound) (hs' : s'.Sound) {x : NodeId}
    (hx : s.contains x) (hself : ¬ s.BelowItself x) : ¬ s'.BelowItself x :=
  fun ⟨levels, hlevels⟩ => hself ⟨levels, (h.descends_of_contains hs hs' hx hlevels).2⟩

theorem Sound.contains_of_owner (hs : s.Sound) {l : ListId} {r : Siblings} {o : NodeId}
    (hr : s.list? l = some r) (ho : r.owner = some o) : s.contains o := by
  obtain ⟨n, hn, -⟩ := hs.owned.listed hr ho List.not_mem_nil
  exact Option.isSome_iff_exists.mpr ⟨n, hn⟩

/-- A node that comes into no list and out of none is where it was. -/
theorem Rearranged.node?_list {l : ListId} {xs : List NodeId} {x : NodeId} {n m : TreeNode α}
    (hr : s.Rearranged s' (put s.members l xs)) (hs : s.Sound) (hx : x ∈ xs ↔ x ∈ s.members l)
    (hn : s.node? x = some n) (hm : s'.node? x = some m) : m.list = n.list := by
  refine Option.ext fun k => ?_
  rw [(hr.sound.holds.node x m hm).list k, (hs.holds.node x n hn).list k, hr.members, mem_put]
  by_cases hk : k = l
  · subst hk
    simp [hx]
  · simp [hk]

/-! ### The top of a planted branch put into a list

The list was there before the branch, and so it is owned by nothing in the branch. -/

section Linked

variable {base : Links α} {top : NodeId} {b : Branch α} {l : ListId} {r : Siblings}
  {xs : List NodeId}

/-- The owner of a list that was there is not below what is planted. -/
theorem Planted.not_descends_owner (h : base.Planted top b s) (hb : base.Sound)
    (hr : base.list? l = some r) {o : NodeId} (ho : r.owner = some o) (levels : Nat) :
    ¬ s.Descends levels top o := by
  intro hlevels
  have halive := h.grown.stays.contains_of_descends hb h.sound (hb.contains_of_owner hr ho) hlevels
  exact Bool.false_ne_true (h.not_contains.symm.trans halive)

/-- What was there stays. -/
theorem Planted.stays_of_linked (h : base.Planted top b s)
    (harr : s.Rearranged s' (put s.members l xs))
    (hxs : ∀ x, x ≠ top → (x ∈ xs ↔ x ∈ s.members l)) : base.Stays s' where
  node := fun {x n} hn => by
    have hn₁ := h.grown.node hn
    obtain ⟨m, hm, hitem, hlists⟩ := harr.relinked.symm.node?_lists hn₁
    have hx : x ≠ top := h.ne_of_contains (Option.isSome_iff_exists.mpr ⟨n, hn⟩)
    exact ⟨m, hm, hitem, hlists, harr.node?_list h.sound (hxs x hx) hn₁ hm⟩
  list := fun hq => harr.relinked.symm.list?_owner (h.grown.list hq)

/-- The top shows the branch. -/
theorem Planted.shows_of_linked (h : base.Planted top b s) (hb : base.Sound)
    (hr : base.list? l = some r) (harr : s.Rearranged s' (put s.members l xs)) :
    s'.Shows top b :=
  h.shows.keep_of_apart (harr.keeps h.sound (h.grown.list hr)) fun levels _ ho =>
    h.not_descends_owner hb hr ho levels

/-- What is not above the list shows the branch that it showed. -/
theorem Planted.keep_of_linked (h : base.Planted top b s) (hb : base.Sound)
    (hr : base.list? l = some r) (harr : s.Rearranged s' (put s.members l xs)) {x : NodeId}
    {c : Branch α} (hx : base.Shows x c)
    (hout : ∀ levels o, r.owner = some o → ¬ base.Descends levels x o) : s'.Shows x c := by
  have hgrown := hx.keep hb (h.grown.keeps hb) nofun nofun
  refine hgrown.keep_of_apart (harr.keeps h.sound (h.grown.list hr)) fun levels o ho ho' => ?_
  exact hout levels o ho (h.grown.descends hb hx.contains ho')

/-- What is new is below the top. -/
theorem Planted.covered_of_linked (h : base.Planted top b s)
    (harr : s.Rearranged s' (put s.members l xs)) (hxs : s.members l ⊆ xs) {x : NodeId}
    (hx : s'.contains x) : base.contains x ∨ ∃ levels, s'.Descends levels top x := by
  rw [harr.relinked.contains] at hx
  refine (h.covered x hx).imp_right ?_
  rintro ⟨levels, hlevels⟩
  exact ⟨levels, (harr.grows hxs).descends hlevels⟩

end Linked

end Links

namespace Tree

open Links

variable {α : Type} {t u v : Tree α} {l : ListId} {ids ids' : List NodeId}
  {bs bs' : List (Branch α)}

/-- The second tree is the first one with branches attached at the tail of a list; `ids` are their
tops. -/
structure Adds (t u : Tree α) (l : ListId) (ids : List NodeId) (bs : List (Branch α)) : Prop extends
    t.links.Stays u.links where
  /-- The list was there. -/
  target : (t.list? l).isSome
  /-- Another list that was there keeps its members. -/
  others : ∀ k, (t.list? k).isSome → k ≠ l → u.members k = t.members k
  /-- The tops come behind the members of the list. -/
  members : u.members l = t.members l ++ ids
  /-- They were not there. -/
  fresh : ∀ id ∈ ids, t.contains id = false
  /-- They show the branches. -/
  shows : List.Forall₂ u.links.Shows ids bs
  /-- Everything that is new is below one of them. -/
  covered : ∀ id, u.contains id →
    t.contains id ∨ ∃ top ∈ ids, ∃ levels, u.links.Descends levels top id
  /-- As many nodes were made as the branches have labels. -/
  counted : u.links.nodes.nextKey = t.links.nodes.nextKey + Branch.sizeOfForest bs

theorem Adds.refl (hl : (t.list? l).isSome) : t.Adds t l [] [] where
  toStays := .refl _
  target := hl
  others := fun _ _ _ => rfl
  members := (List.append_nil _).symm
  fresh := nofun
  shows := .nil
  covered := fun _ => .inl
  counted := rfl

/-- **A branch that is planted and put at the tail of a list is attached there.** -/
theorem adds_attach (t : Tree α) (hl : (t.list? l).isSome) (b : Branch α) :
    t.Adds ((t.plant b).2.pushBack l (t.plant b).1).2 l [(t.plant b).1] [b] := by
  have hp := t.planted_plant b
  obtain ⟨r, hr⟩ := Option.isSome_iff_exists.mp hl
  have hr₁ := hp.grown.list hr
  obtain ⟨s, hs, harr⟩ := hp.sound.pushBack_loose (by rw [hr₁]; rfl) hp.alive hp.loose
  have hlinks := Tree.pushBack_links hs
  constructor
  case toStays =>
    exact hlinks ▸ hp.stays_of_linked harr fun x hx => by simp [hx]
  case target => exact hl
  case others =>
    intro k hk hne
    rw [Tree.members, hlinks, harr.members, put_of_ne hne]
    exact hp.grown.members hk
  case members =>
    rw [Tree.members, hlinks, harr.members, put_self, hp.grown.members hl]
    rfl
  case fresh =>
    intro id hid
    rw [List.mem_singleton.mp hid]
    exact hp.not_contains
  case shows => exact .cons (hlinks ▸ hp.shows_of_linked t.sound hr harr) .nil
  case covered =>
    intro x hx
    rw [Tree.contains, hlinks] at hx
    rw [hlinks]
    exact (hp.covered_of_linked harr (List.subset_append_left _ _) hx).imp_right fun hbelow =>
      ⟨_, List.mem_singleton_self _, hbelow⟩
  case counted =>
    rw [hlinks, harr.relinked.nodes_nextKey, hp.counted, Branch.sizeOfForest_singleton]

theorem Adds.keeps (h : t.Adds u l ids bs) : t.links.Keeps u.links (t.owner? l) where
  node := fun hn _ => by
    obtain ⟨m, hm, hitem, hlists, -⟩ := h.node hn
    exact ⟨m, hm, hitem, hlists⟩
  members := fun {x n k} hn hk hx => by
    obtain ⟨-, r, hr, ho⟩ := t.sound.owned.owned hn hk
    refine h.others k (Option.isSome_iff_exists.mpr ⟨r, hr⟩) ?_
    rintro rfl
    refine hx ?_
    rw [owner?, list?, hr, Option.bind_some, ho]

theorem Adds.grows (h : t.Adds u l ids bs) : t.links.Grows u.links := by
  rintro x y ⟨n, k, hn, hk, hy⟩
  obtain ⟨m, hm, -, hlists, -⟩ := h.node hn
  refine ⟨m, k, hm, hlists ▸ hk, ?_⟩
  by_cases hkl : k = l
  · subst hkl
    have hmem : y ∈ t.members k ++ ids := List.mem_append_left ids hy
    rwa [← h.members] at hmem
  · have hmem : y ∈ t.members k := hy
    rwa [← h.others k (t.sound.holds.alive k y hy).2 hkl] at hmem

/-- **Branches attached one after the other** are attached together. -/
theorem Adds.trans (h : t.Adds u l ids bs) (h' : u.Adds v l ids' bs') :
    t.Adds v l (ids ++ ids') (bs ++ bs') where
  toStays := h.toStays.trans h'.toStays
  target := h.target
  others := fun k hk hne => by
    obtain ⟨r, hr⟩ := Option.isSome_iff_exists.mp hk
    obtain ⟨q, hq, -⟩ := h.list hr
    rw [h'.others k (Option.isSome_iff_exists.mpr ⟨q, hq⟩) hne, h.others k hk hne]
  members := by rw [h'.members, h.members, List.append_assoc]
  fresh := fun id hid => by
    rcases List.mem_append.mp hid with hid | hid
    · exact h.fresh id hid
    · refine Bool.eq_false_iff.mpr fun hc => ?_
      exact Bool.false_ne_true ((h'.fresh id hid).symm.trans (h.contains hc))
  shows := by
    refine List.rel_append ?_ h'.shows
    refine forall₂_of_mem h.shows fun top htop b _ hb => ?_
    refine hb.keep_of_apart h'.keeps fun levels o ho hdescends => ?_
    obtain ⟨r, hr⟩ := Option.isSome_iff_exists.mp h.target
    obtain ⟨q, hq, hqr⟩ := h.list hr
    rw [owner?, list?, hq, Option.bind_some, hqr] at ho
    have howner := t.sound.contains_of_owner hr ho
    have halive := h.contains_of_descends t.sound u.sound howner hdescends
    exact Bool.false_ne_true ((h.fresh top htop).symm.trans halive)
  covered := fun id hid => by
    rcases h'.covered id hid with hid | ⟨top, htop, levels, hlevels⟩
    · rcases h.covered id hid with hid | ⟨top, htop, levels, hlevels⟩
      · exact .inl hid
      · exact .inr ⟨top, List.mem_append_left _ htop, levels, h'.grows.descends hlevels⟩
    · exact .inr ⟨top, List.mem_append_right _ htop, levels, hlevels⟩
  counted := by
    rw [h'.counted, h.counted, Branch.sizeOfForest_append, Nat.add_assoc]

end Tree

end Toolpath
