import Toolpath.Proofs.Tree.Outermost

/-!
# Copies beside their originals

A copy of a node that is not below itself is put directly behind the node, if that is in a list.
The copy is a branch that was planted and then linked, so it shares nothing with what was there: its
nodes are those that are new, each of them but the top has its parent in the copy, and there are as
many as the node has below it. What was there stays where it is.

A finite subtree is walked without meeting a node twice, wherever its top is: nothing in it is below
itself, whatever goes round elsewhere.

## Main definitions

* `Tree.Comprises` — the nodes of a subtree, each of them once
* `Tree.Duplicated` — the tree with a copy of a node

## Main results

* `Tree.comprises_subtree`, `Tree.length_subtree` — the nodes of a finite subtree
* `Tree.duplicated_of_planted` — a copy that is put behind its original
* `Tree.exists_duplicateWith` — a node that is not below itself has a copy
-/

namespace Toolpath

namespace Tree

open Links

variable {α : Type} {t u v : Tree α} {id copy x y : NodeId} {b : Branch α} {f : α → α}

/-! ### The nodes of a finite subtree -/

/-- A node that is not too deep is in the branch that is taken out. -/
theorem mem_names_of_descends {fuel levels : Nat} {c : Branch (NodeId × α)}
    (hc : t.branchTo fuel x = some c) (hy : t.links.Descends levels x y) (hlevels : levels < fuel) :
    y ∈ names c := by
  induction fuel generalizing levels x c with
  | zero => cases hc
  | succ fuel ih =>
    obtain ⟨n, hn, rfl⟩ := Option.map_eq_some_iff.mp hc
    cases levels with
    | zero =>
      obtain rfl : x = y := hy
      exact List.mem_map.mpr ⟨(x, n.item), Branch.self_mem_labels _ _, rfl⟩
    | succ levels =>
      obtain ⟨z, ⟨m, l, hm, hl, hz⟩, hzy⟩ := hy
      obtain rfl := Option.some.inj (hn.symm.trans hm)
      have hlevels := Nat.lt_of_succ_lt_succ hlevels
      obtain ⟨c, hc⟩ : ∃ c, t.branchTo fuel z = some c := by
        obtain ⟨k, hk⟩ := Option.isSome_iff_exists.mp (t.sound.holds.alive l z hz).1
        obtain ⟨fuel, rfl⟩ := Nat.exists_eq_succ_of_ne_zero (Nat.ne_zero_of_lt hlevels)
        exact ⟨_, Option.map_eq_some_iff.mpr ⟨k, hk, rfl⟩⟩
      obtain ⟨label, hlabel, rfl⟩ := List.mem_map.mp (ih hc hzy hlevels)
      have hlist : (t.members l).filterMap (t.branchTo fuel) ∈
          n.lists.map fun l => (t.members l).filterMap (t.branchTo fuel) :=
        List.mem_map.mpr ⟨l, hl, rfl⟩
      have hmember : c ∈ (t.members l).filterMap (t.branchTo fuel) :=
        List.mem_filterMap.mpr ⟨z, hz, hc⟩
      exact List.mem_map.mpr ⟨label, Branch.mem_labels_of_mem hlist hmember hlabel, rfl⟩

theorem exists_branch?_of_shows (h : t.links.Shows x b) :
    ∃ c, t.branch? x = some c ∧ c.map Prod.snd = b :=
  Option.map_eq_some_iff.mp (branchTo_of_shows h (h.height_lt t.sound))

/-- The nodes are those of the subtree below a node, each of them once. -/
structure Comprises (t : Tree α) (x : NodeId) (xs : List NodeId) : Prop where
  /-- No node occurs twice. -/
  nodup : xs.Nodup
  /-- The nodes are those that are some number of levels below the node. -/
  mem_iff : ∀ y, y ∈ xs ↔ ∃ levels, t.links.Descends levels x y

/-- **The nodes of a finite subtree**, each of them once, -/
theorem comprises_subtree (h : t.links.Shows x b) : t.Comprises x (t.subtree x) := by
  obtain ⟨c, hc, -⟩ := exists_branch?_of_shows h
  rw [subtree, hc]
  refine ⟨nodup_branchTo hc fun levels y hy => ?_, fun y => ⟨fun hy => ?_, ?_⟩⟩
  · obtain ⟨d, hd, -⟩ := h.descends hy
    exact hd.not_belowItself
  · obtain ⟨⟨y, a⟩, hlabel, rfl⟩ := List.mem_map.mp hy
    exact descends_of_mem_labels hc hlabel
  · rintro ⟨levels, hy⟩
    refine mem_names_of_descends hc hy (Nat.lt_of_not_le fun hle => ?_)
    exact h.not_belowItself (t.sound.descends_self_of_deep h.contains hle hy)

/-- as many as the branch has labels. -/
theorem length_subtree (h : t.links.Shows x b) : (t.subtree x).length = b.size := by
  obtain ⟨c, hc, rfl⟩ := exists_branch?_of_shows h
  rw [subtree, hc, Branch.size_map, ← Branch.length_labels]
  exact List.length_map _

/-- A subtree that shows the same branch in a tree that has grown has the same nodes. -/
theorem Comprises.of_grows {xs : List NodeId} (h : t.Comprises x xs) (hx : t.links.Shows x b)
    (hgrows : t.links.Grows u.links) (hx' : u.links.Shows x b) : u.Comprises x xs := by
  have hlater := comprises_subtree hx'
  have hsub : t.subtree x ⊆ u.subtree x := fun y hy => by
    obtain ⟨levels, hlevels⟩ := ((comprises_subtree hx).mem_iff y).mp hy
    exact (hlater.mem_iff y).mpr ⟨levels, hgrows.descends hlevels⟩
  -- there are as many nodes as before, so no other one has come
  have hperm : (t.subtree x).Perm (u.subtree x) :=
    ((comprises_subtree hx).nodup.subperm hsub).perm_of_length_le
      (by rw [length_subtree hx, length_subtree hx'])
  refine ⟨h.nodup, fun y => ?_⟩
  rw [h.mem_iff, ← (comprises_subtree hx).mem_iff, hperm.mem_iff, hlater.mem_iff]

/-! ### A copy behind its original -/

/-- The second tree is the first one with a copy of a node, directly behind the node if that is in a
list. -/
structure Duplicated (t u : Tree α) (id copy : NodeId) (f : α → α) : Prop extends
    t.links.Stays u.links where
  /-- The node shows what it showed, and its copy shows that with the function applied to every
  item. -/
  shows : ∃ b, t.links.Shows id b ∧ u.links.Shows id b ∧ u.links.Shows copy (b.map f)
  /-- The nodes of the original, -/
  original : t.Comprises id (t.subtree id)
  /-- which are the same afterwards. -/
  kept : u.Comprises id (t.subtree id)
  /-- The nodes of the copy, -/
  copied : u.Comprises copy (u.subtree copy)
  /-- as many as those of the original. -/
  length_eq : (u.subtree copy).length = (t.subtree id).length
  /-- They are all that is new. -/
  new_iff : ∀ x, x ∈ u.subtree copy ↔ u.contains x ∧ t.contains x = false
  /-- Below the top they have their parents in the copy. -/
  parent : ∀ x ∈ u.subtree copy, x ≠ copy → ∃ p ∈ u.subtree copy, u.parent? x = some p
  /-- The copy is in a list if the original is, and in the same one, -/
  place : u.listOf? copy = t.listOf? id
  /-- directly behind the original. -/
  behind : ∀ l, t.listOf? id = some l → ∃ before after,
    t.members l = before ++ id :: after ∧ u.members l = before ++ id :: copy :: after
  /-- Every other list that was there keeps its members. -/
  others : ∀ l, (t.list? l).isSome → t.listOf? id ≠ some l → u.members l = t.members l

/-- What is known of the nodes of a copy, from what it shows. -/
theorem duplicated_of_shows (hstays : t.links.Stays u.links) (hgrows : t.links.Grows u.links)
    (hfresh : t.contains copy = false) (hid : t.links.Shows id b) (hid' : u.links.Shows id b)
    (hcopy : u.links.Shows copy (b.map f))
    (hcovered : ∀ x, u.contains x → t.contains x ∨ ∃ levels, u.links.Descends levels copy x)
    (hplace : u.listOf? copy = t.listOf? id)
    (hbehind : ∀ l, t.listOf? id = some l → ∃ before after,
      t.members l = before ++ id :: after ∧ u.members l = before ++ id :: copy :: after)
    (hothers : ∀ l, (t.list? l).isSome → t.listOf? id ≠ some l → u.members l = t.members l) :
    t.Duplicated u id copy f := by
  have horiginal := comprises_subtree hid
  have hcopied := comprises_subtree hcopy
  refine ⟨hstays, ⟨b, hid, hid', hcopy⟩, horiginal, horiginal.of_grows hid hgrows hid', hcopied,
    ?_, fun x => ⟨fun hx => ?_, fun hx => ?_⟩, fun x hx hne => ?_, hplace, hbehind, hothers⟩
  · rw [length_subtree hcopy, length_subtree hid, Branch.size_map]
  · obtain ⟨levels, hlevels⟩ := (hcopied.mem_iff x).mp hx
    have halive := u.sound.contains_of_descends hcopy.contains hlevels
    refine ⟨halive, Bool.eq_false_iff.mpr fun hold => ?_⟩
    -- what is above something that was there was there
    have htop := hstays.contains_of_descends t.sound u.sound hold hlevels
    exact Bool.false_ne_true (hfresh.symm.trans htop)
  · refine (hcopied.mem_iff x).mpr ((hcovered x hx.1).resolve_left fun hold => ?_)
    exact Bool.false_ne_true (hx.2.symm.trans hold)
  · obtain ⟨levels, hlevels⟩ := (hcopied.mem_iff x).mp hx
    cases levels with
    | zero => exact absurd hlevels.symm hne
    | succ levels =>
      obtain ⟨p, hp, y, hpy, rfl⟩ := descends_add.mp hlevels
      exact ⟨p, (hcopied.mem_iff p).mpr ⟨levels, hp⟩, parent?_eq_some_iff.mpr hpy⟩

/-- A copy of a node that is in no list stays in none. -/
theorem duplicated_of_loose (hid : t.links.Shows id b)
    (h : t.links.Planted copy (b.map f) u.links) (hloose : t.listOf? id = none) :
    t.Duplicated u id copy f := by
  have hnone {l : ListId} : t.listOf? id ≠ some l :=
    hloose.trans_ne (Option.some_ne_none l).symm
  refine duplicated_of_shows h.grown.stays (h.grown.grows t.sound) h.not_contains hid
    (hid.keep t.sound (h.grown.keeps t.sound) (fun x hx => absurd hx (Option.some_ne_none x).symm)
      (Option.some_ne_none id).symm) h.shows h.covered
    (h.loose.trans hloose.symm) (fun l hl => absurd hl hnone) fun l hl _ => h.grown.members hl

/-- A planted node put directly behind one that was there. -/
theorem rearranged_insertAfter (hid : t.contains id) (h : t.links.Planted copy b v.links)
    {l : ListId} (hl : t.listOf? id = some l) :
    v.links.Rearranged (v.insertAfter id copy).2.links
      (put v.links.members l (Row.insertBehind id copy (v.links.members l))) := by
  have hne : id ≠ copy := h.ne_of_contains hid
  -- the copy is in no list before, so it is taken out of none
  have hout := v.sound.holds.not_mem_of_listOf? h.loose
  have hlist : v.links.listOf? id = some l := (h.grown.listOf? hid).trans hl
  obtain ⟨s, hs, harr⟩ := v.sound.insertAfter hne h.alive hlist
  rw [without_eq_self hout, List.erase_of_not_mem (hout l)] at harr
  obtain rfl : (v.insertAfter id copy).2.links = s := (settle_eq _ hs).2
  exact harr

theorem duplicated_of_linked (hid : t.links.Shows id b)
    (h : t.links.Planted copy (b.map f) v.links) {l : ListId} (hl : t.listOf? id = some l) :
    t.Duplicated (v.insertAfter id copy).2 id copy f := by
  have hmem : id ∈ t.members l := t.sound.holds.listOf?_eq_some_iff.mp hl
  obtain ⟨r, hr⟩ := Option.isSome_iff_exists.mp (t.sound.holds.alive l id hmem).2
  have hgrown : v.links.members l = t.members l := h.grown.members (by rw [hr]; rfl)
  have harr := rearranged_insertAfter hid.contains h hl
  have hxs (x : NodeId) : x ∈ Row.insertBehind id copy (v.links.members l) ↔
      x = copy ∨ x ∈ v.links.members l :=
    Row.mem_insertBehind (hgrown ▸ hmem)
  have hsub : v.links.members l ⊆ Row.insertBehind id copy (v.links.members l) :=
    fun x hx => (hxs x).mpr (.inr hx)
  have hgrows : t.links.Grows (v.insertAfter id copy).2.links := fun x y hxy =>
    harr.grows hsub x y (h.grown.grows t.sound x y hxy)
  have hid' : (v.insertAfter id copy).2.links.Shows id b := by
    refine h.keep_of_linked t.sound hr harr hid fun levels o ho hlevels => ?_
    -- the owner of the list is the parent of the node, so it is not below it
    have hchild : t.links.IsChild o id :=
      isChild_iff.mpr ⟨l, Option.bind_eq_some_iff.mpr ⟨r, hr, ho⟩, hmem⟩
    exact hid.not_belowItself ⟨levels, descends_add.mpr ⟨o, hlevels, id, hchild, rfl⟩⟩
  refine duplicated_of_shows (h.stays_of_linked harr fun x hx => by simp [hxs x, hx]) hgrows
    h.not_contains hid hid' (h.shows_of_linked t.sound hr harr)
    (fun x hx => h.covered_of_linked harr hsub hx) ?_ (fun k hk => ?_) fun k hk hne => ?_
  · refine Eq.trans ?_ hl.symm
    refine harr.sound.holds.listOf?_eq_some_iff.mpr ?_
    rw [harr.members, put_self]
    exact (hxs copy).mpr (.inl rfl)
  · obtain rfl := Option.some.inj (hl.symm.trans hk)
    obtain ⟨before, after, hrow, hbefore⟩ := List.eq_append_cons_of_mem hmem
    refine ⟨before, after, hrow, ?_⟩
    show (v.insertAfter id copy).2.links.members l = _
    rw [harr.members, put_self, hgrown, hrow, Row.insertBehind_append hbefore]
  · have hkl : k ≠ l := fun he => hne (he ▸ hl)
    show (v.insertAfter id copy).2.links.members k = _
    rw [harr.members, put_of_ne hkl]
    exact h.grown.members hk

/-- **A copy is put directly behind its original**, if that is in a list. -/
theorem duplicated_of_planted (hid : t.links.Shows id b)
    (h : t.links.Planted copy (b.map f) v.links) :
    t.Duplicated (v.insertAfter id copy).2 id copy f := by
  cases hl : t.listOf? id with
  | none =>
    have hlist : v.links.listOf? id = none := (h.grown.listOf? hid.contains).trans hl
    have hlinks := settle_eq (v.sound.settles_insertAfter id copy)
      (insertAfter_of_refused (.inr (.inr hlist)))
    rw [show (v.insertAfter id copy).2 = v from Tree.ext hlinks.2]
    exact duplicated_of_loose hid h hl
  | some l => exact duplicated_of_linked hid h hl

/-- **A node that is not below itself has a copy**, which is the branch that it shows. -/
theorem exists_duplicateWith (f : α → α) (hid : t.contains id) (hself : ¬ t.links.BelowItself id) :
    ∃ copy v, t.duplicateWith? id f = some (copy, v) ∧
      ∃ b, t.links.Shows id b ∧ t.links.Planted copy (b.map f) v.links := by
  obtain ⟨c, s, hs, hsound⟩ := t.sound.settles_duplicateWith hself f
  obtain ⟨copy, -, rfl, -⟩ := Links.planted_duplicateTo t.sound hid hs
  have hv : t.duplicateWith? id f = some (copy, ⟨s, hsound⟩) := duplicateWith?_eq_some_iff.mpr hs
  exact ⟨copy, _, hv, planted_duplicateWith hv⟩

end Tree

end Toolpath
