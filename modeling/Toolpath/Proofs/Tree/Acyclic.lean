import Toolpath.Proofs.Tree.Attaching
import Toolpath.Proofs.Tree.Enlarging
import Toolpath.Proofs.Tree.Sequences

/-!
# Trees without cycles

A node that is put into a list of its own, or into a list of a node below it, is below itself from
then on. Nothing in a tree looks out for that: it would have to walk up from the list, and the
operations on places walk nowhere. So whether a tree has a cycle is up to the moves that are made.

A move puts its node into one list at most, and what it changes about parents is the parent of that
node. If the owner of the list is not below the node, there was no way down from the node to its new
parent, and no cycle arises. If it is, the way down from the node to the owner is closed by the
move. So that is the whole condition.

## Main definitions

* `Links.Acyclic` — no node is below itself
* `Sequences.Target` — the list into which a move puts its node
* `Tree.Outward` — the move puts no node below itself

## Main results

* `Tree.acyclic_move_iff` — a tree without cycles stays so exactly under moves that are refused or
  lead outward
* `Links.Planted.acyclic` — what is planted makes no cycle
-/

namespace Toolpath

namespace Links

variable {α : Type} {s s' base : Links α}

/-- No node is below itself. -/
def Acyclic (s : Links α) : Prop := ∀ id, ¬ s.BelowItself id

theorem Acyclic.of_grows (h : s.Acyclic) (hg : s'.Grows s) : s'.Acyclic := by
  rintro id ⟨levels, hself⟩
  exact h id ⟨levels, hg.descends hself⟩

theorem Acyclic.not_isChild (h : s.Acyclic) {levels : Nat} {x y : NodeId}
    (hxy : s.Descends levels x y) : ¬ s.IsChild y x :=
  fun hchild => h x ⟨levels, descends_add.mpr ⟨y, hxy, x, hchild, rfl⟩⟩

/-! ### One more child -/

section Edge

variable {o id : NodeId}

/-- A way down with one more child to go through is as it was, or it goes from the parent to the
child. -/
theorem descends_of_edge (hc : ∀ x y, s'.IsChild x y → s.IsChild x y ∨ x = o ∧ y = id)
    {levels : Nat} {x y : NodeId} (h : s'.Descends levels x y) :
    s.Descends levels x y ∨ (∃ a, s.Descends a x o) ∧ ∃ b, s.Descends b id y := by
  induction levels generalizing x with
  | zero => exact .inl h
  | succ levels ih =>
    obtain ⟨z, hz, hzy⟩ := h
    rcases hc x z hz with hz | ⟨rfl, rfl⟩
    · rcases ih hzy with hzy | ⟨⟨a, ha⟩, hb⟩
      · exact .inl ⟨z, hz, hzy⟩
      · exact .inr ⟨⟨a + 1, z, hz, ha⟩, hb⟩
    · rcases ih hzy with hzy | ⟨-, hb⟩
      · exact .inr ⟨⟨0, rfl⟩, levels, hzy⟩
      · exact .inr ⟨⟨0, rfl⟩, hb⟩

/-- A child that is not above its new parent makes no cycle. -/
theorem Acyclic.of_edge (h : s.Acyclic)
    (hc : ∀ x y, s'.IsChild x y → s.IsChild x y ∨ x = o ∧ y = id)
    (hout : ∀ levels, ¬ s.Descends levels id o) : s'.Acyclic := by
  rintro x ⟨levels, hself⟩
  rcases descends_of_edge hc hself with hself | ⟨⟨a, ha⟩, b, hb⟩
  · exact h x ⟨levels, hself⟩
  · exact hout (b + a) (descends_add.mpr ⟨x, hb, ha⟩)

/-- A child that is above its new parent makes a cycle: no other child is lost, and the child itself
is not on the way down from it. -/
theorem Acyclic.not_of_edge (h : s.Acyclic)
    (hc : ∀ x y, s.IsChild x y → y ≠ id → s'.IsChild x y) (hnew : s'.IsChild o id) {levels : Nat}
    (hlevels : s.Descends levels id o) : ¬ s'.Acyclic := by
  have hkeep : ∀ {k y}, s.Descends k id y → s'.Descends k id y := by
    intro k
    induction k with
    | zero => exact fun hy => hy
    | succ k ih =>
      intro y hy
      obtain ⟨w, hw, z, hwz, rfl⟩ := descends_add.mp hy
      have hne : z ≠ id := by
        rintro rfl
        exact h.not_isChild hw hwz
      exact descends_add.mpr ⟨w, ih hw, z, hc w z hwz hne, rfl⟩
  exact fun h' => h'.not_isChild (hkeep hlevels) hnew

end Edge

/-! ### Finite subtrees -/

/-- What shows a branch is not below itself, since below it there are smaller branches only. -/
theorem Shows.not_belowItself {x : NodeId} {b : Branch α} (h : s.Shows x b) :
    ¬ s.BelowItself x := by
  rintro ⟨levels, hself⟩
  induction hheight : b.height using Nat.strong_induction_on generalizing b with
  | _ k ih =>
    obtain ⟨c, hc, hlt, -⟩ := h.descends hself
    exact ih c.height (by omega) hc rfl

/-- What shows a branch has fewer levels than nodes were made. -/
theorem Shows.height_lt (hs : s.Sound) {x : NodeId} {b : Branch α} (h : s.Shows x b) :
    b.height < s.nodes.nextKey := by
  obtain ⟨y, hy⟩ := h.exists_descends
  exact Nat.lt_of_not_le fun hle =>
    h.not_belowItself (hs.descends_self_of_deep h.contains hle hy)

/-- **What is planted makes no cycle.** -/
theorem Planted.acyclic {top : NodeId} {b : Branch α} (h : base.Planted top b s) (hb : base.Sound)
    (hbase : base.Acyclic) : s.Acyclic := by
  rintro x ⟨levels, hself⟩
  have hx : s.contains x := by
    obtain ⟨z, ⟨n, -, hn, -⟩, -⟩ := hself
    exact Option.isSome_iff_exists.mpr ⟨n, hn⟩
  rcases h.covered x hx with hx | ⟨k, hk⟩
  · exact hbase x ⟨levels, h.grown.descends hb hx hself⟩
  · obtain ⟨c, hc, -⟩ := h.shows.descends hk
    exact hc.not_belowItself ⟨levels, hself⟩

/-- **What is destroyed makes no cycle.** -/
theorem Shrinks.grows (h : s.Shrinks s') : s'.Grows s := by
  rintro x y ⟨n, l, hn, hl, hy⟩
  obtain ⟨m, hm, -, hlists⟩ := h.node hn
  exact ⟨m, l, hm, hlists ▸ hl, h.mem hy⟩

theorem grows_modify (h : s.Sound) (id : NodeId) (f : α → α) : (s.modify id f).Grows s := by
  rintro x y ⟨m, l, hm, hl, hy⟩
  rw [node?_modify] at hm
  obtain ⟨n, hn, rfl⟩ := Option.map_eq_some_iff.mp hm
  rw [(h.holds.modify id f).members_eq] at hy
  refine ⟨n, l, hn, ?_, hy⟩
  split at hl <;> exact hl

/-! ### Names of lists -/

/-- The lists of the second store that the first one has not were made later. -/
structure Later (s s' : Links α) : Prop where
  /-- Names go on. -/
  next : s.siblings.nextKey ≤ s'.siblings.nextKey
  /-- A list that was not there has a later name. -/
  made : ∀ l, (s'.list? l).isSome → (s.list? l).isSome ∨ s.siblings.nextKey ≤ l.key

theorem Later.refl (s : Links α) : s.Later s := ⟨Nat.le_refl _, fun _ => .inl⟩

theorem Later.trans {s'' : Links α} (h : s.Later s') (h' : s'.Later s'') : s.Later s'' where
  next := h.next.trans h'.next
  made := fun l hl => by
    rcases h'.made l hl with hl | hl
    · exact h.made l hl
    · exact .inr (h.next.trans hl)

theorem Relinked.later (h : s.Relinked s') : s.Later s' :=
  ⟨h.siblings_nextKey.ge, fun l hl => .inl (h.isSome_list? l ▸ hl)⟩

theorem later_newList (s : Links α) (owner : Option NodeId) : s.Later (s.newList owner).2 where
  next := by
    have hnext : (s.newList owner).2.siblings.nextKey = s.siblings.nextKey + 1 := by
      unfold newList
      cases Option.filter s.contains owner <;> exact Arena.nextKey_push _ _
    omega
  made := fun l hl => by
    rw [list?_newList] at hl
    split at hl
    · rename_i he
      rw [he, fst_newList]
      exact .inr (Nat.le_refl _)
    · exact .inl hl

theorem Enlarges.later (h : s.Enlarges s') : s.Later s' := by
  induction h with
  | refl => exact .refl s
  | create _ a ih => exact ih.trans ⟨Nat.le_refl _, fun _ => .inl⟩
  | newList _ owner ih => exact ih.trans (later_newList _ owner)
  | relink _ hu ih => exact ih.trans hu.later

end Links

namespace Tree

variable {α : Type}

/-- The lists that are planted are made later. -/
theorem later_plant (t : Tree α) (b : Branch α) : t.links.Later (t.plant b).2.links :=
  (t.enlarges_plant b).later

end Tree

/-! ### Where a move puts its node -/

/-- The node that is moved. -/
def Move.node : Move → NodeId
  | .insert _ id | .pushBack _ id | .insertAfter _ id | .splice id | .towardHead id
  | .towardTail id => id

namespace Sequences

open Links (put without)

variable {v v' : Sequences} {m : Move}

/-- The list into which a move puts its node. -/
inductive Target (v : Sequences) : Move → ListId → Prop where
  /-- The list that is named. -/
  | insert (l : ListId) (id : NodeId) : Target v (.insert l id) l
  /-- The list that is named. -/
  | pushBack (l : ListId) (id : NodeId) : Target v (.pushBack l id) l
  /-- The list that the anchor is in. -/
  | insertAfter {l : ListId} {anchor : NodeId} (id : NodeId) (ha : anchor ∈ v.rows l) :
    Target v (.insertAfter anchor id) l

end Sequences

namespace Tree

open Links (put without put_self put_of_ne)

variable {α : Type} {t : Tree α}

/-- The children of a node are the members of the lists that it owns. -/
theorem isChild_iff {x y : NodeId} :
    t.links.IsChild x y ↔ ∃ l, t.owner? l = some x ∧ y ∈ t.members l := by
  constructor
  · rintro ⟨n, l, hn, hl, hy⟩
    exact ⟨l, t.sound.owner_eq_some_iff.mpr ⟨n, hn, hl⟩, hy⟩
  · rintro ⟨l, hl, hy⟩
    obtain ⟨n, hn, hmem⟩ := t.sound.owner_eq_some_iff.mp hl
    exact ⟨n, l, hn, hmem, hy⟩

/-- The parent of a node is the node whose child it is. -/
theorem parent?_eq_some_iff {x y : NodeId} : t.parent? y = some x ↔ t.links.IsChild x y := by
  rw [isChild_iff, parent?, Option.bind_eq_some_iff]
  constructor
  · rintro ⟨l, hl, ho⟩
    exact ⟨l, ho, t.sound.holds.listOf?_eq_some_iff.mp hl⟩
  · rintro ⟨l, ho, hl⟩
    exact ⟨l, t.sound.holds.listOf?_eq_some_iff.mpr hl, ho⟩

/-- A node taken out of every row and put into one of them. -/
theorem mem_put_without {l k : ListId} {x id : NodeId} {xs : List NodeId}
    (hxs : ∀ y, y ∈ xs ↔ y = id ∨ y ∈ t.members l) :
    x ∈ put (without t.members id) l xs k ↔
      x = id ∧ k = l ∨ x ∈ t.members k ∧ (x = id → k = l) := by
  by_cases hk : k = l
  · subst hk
    rw [put_self, hxs]
    simp
  · have herase : x ∈ (t.members k).erase id ↔ x ≠ id ∧ x ∈ t.members k :=
      (t.sound.holds.nodup k).mem_erase_iff
    rw [put_of_ne hk, without, herase]
    simp [hk, and_comm]

section Step

variable [Lockable α] {m : Move} {v : Sequences}

/-- What a step does to the members of lists: either the node that is moved goes into one list and
out of every other, or no list gets a further member. -/
theorem mem_rows_of_step (h : t.sequences.Step m v) :
    (∃ l, t.sequences.Target m l ∧ ∀ k x,
      x ∈ v.rows k ↔ x = m.node ∧ k = l ∨ x ∈ t.members k ∧ (x = m.node → k = l)) ∨
    (∀ l, ¬ t.sequences.Target m l) ∧ ∀ k x, x ∈ v.rows k → x ∈ t.members k := by
  have hexchange {l k : ListId} {a b x : NodeId} (hab : Row.after a (t.members l) = some b)
      (hx : x ∈ put t.members l (Row.exchange a b (t.members l)) k) : x ∈ t.members k := by
    by_cases hk : k = l
    · subst hk
      rw [put_self] at hx
      exact (Row.mem_exchange (t.sound.holds.nodup k) hab).mp hx
    · rwa [put_of_ne hk] at hx
  cases h with
  | @insert l id hid hl =>
    exact .inl ⟨l, .insert l id, fun k x => mem_put_without fun y => Row.mem_behindHead⟩
  | @pushBack l id hid hl =>
    exact .inl ⟨l, .pushBack l id, fun k x => mem_put_without fun y => Row.mem_atTail⟩
  | @insertAfter l anchor id hne hid ha =>
    refine .inl ⟨l, .insertAfter id ha, fun k x => mem_put_without fun y => ?_⟩
    have ha' : anchor ∈ (t.members l).erase id := (List.mem_erase_of_ne hne).mpr ha
    refine (Row.mem_insertBehind ha').trans (or_congr_right' fun hy => ?_)
    exact List.mem_erase_of_ne hy
  | splice hid => exact .inr ⟨nofun, fun k x hx => List.mem_of_mem_erase hx⟩
  | @towardHead l id p hp =>
    have hafter := (Row.before_eq_some_iff (t.sound.holds.nodup l)).mp hp
    exact .inr ⟨nofun, fun k x hx => hexchange hafter hx⟩
  | @towardTail l id n hn => exact .inr ⟨nofun, fun k x hx => hexchange hn hx⟩

theorem target_unique {l k : ListId} (hl : t.sequences.Target m l) (hk : t.sequences.Target m k) :
    l = k := by
  cases hl with
  | insert => cases hk; rfl
  | pushBack => cases hk; rfl
  | insertAfter _ ha =>
    cases hk with
    | insertAfter _ ha' => exact t.sound.holds.eq_of_mem ha ha'

/-- The move puts no node below itself: the owner of the list into which the node goes is neither
the node nor below it. -/
def Outward (t : Tree α) (m : Move) : Prop :=
  ∀ l o, t.sequences.Target m l → t.owner? l = some o → ∀ levels, ¬ t.links.Descends levels m.node o

theorem acyclic_iff_of_simulates (h : t.links.Acyclic) {r : Bool × Tree α}
    (hr : t.Simulates m r) : r.2.links.Acyclic ↔ r.1 = false ∨ t.Outward m := by
  cases hdone : r.1 with
  | false =>
    rw [(hr.refused hdone).1]
    exact iff_of_true h (.inl rfl)
  | true =>
    have hstep : t.sequences.Step m r.2.sequences := (hr.done hdone _).mpr rfl
    have hchild {x y : NodeId} : r.2.links.IsChild x y ↔
        ∃ l, t.owner? l = some x ∧ y ∈ r.2.members l := by
      rw [isChild_iff]
      simp only [hr.owner]
    rcases mem_rows_of_step hstep with ⟨l, hl, hrows⟩ | ⟨hnone, hrows⟩
    case inr =>
      refine iff_of_true (h.of_grows fun x y hxy => ?_) (.inr fun l o hl => absurd hl (hnone l))
      obtain ⟨k, hk, hy⟩ := hchild.mp hxy
      exact isChild_iff.mpr ⟨k, hk, hrows k y hy⟩
    cases ho : t.owner? l with
    | none =>
      refine iff_of_true (h.of_grows fun x y hxy => ?_) (.inr fun k o hk hko => ?_)
      · obtain ⟨k, hk, hy⟩ := hchild.mp hxy
        rcases (hrows k y).mp hy with ⟨-, rfl⟩ | ⟨hy, -⟩
        · rw [ho] at hk
          cases hk
        · exact isChild_iff.mpr ⟨k, hk, hy⟩
      · obtain rfl := target_unique hl hk
        rw [ho] at hko
        cases hko
    | some o =>
      have hnew : r.2.links.IsChild o m.node :=
        hchild.mpr ⟨l, ho, (hrows l m.node).mpr (.inl ⟨rfl, rfl⟩)⟩
      constructor
      · intro hacyclic
        refine .inr fun k o' hk hko levels hlevels => ?_
        obtain rfl := target_unique hl hk
        obtain rfl := Option.some.inj (ho.symm.trans hko)
        refine h.not_of_edge (fun x y hxy hne => ?_) hnew hlevels hacyclic
        obtain ⟨j, hj, hy⟩ := isChild_iff.mp hxy
        exact hchild.mpr ⟨j, hj, (hrows j y).mpr (.inr ⟨hy, fun he => absurd he hne⟩)⟩
      · rintro (hno | hout)
        · cases hno
        · refine h.of_edge (fun x y hxy => ?_) (hout l o hl ho)
          obtain ⟨k, hk, hy⟩ := hchild.mp hxy
          rcases (hrows k y).mp hy with ⟨rfl, rfl⟩ | ⟨hy, -⟩
          · exact .inr ⟨Option.some.inj (hk.symm.trans ho), rfl⟩
          · exact .inl (isChild_iff.mpr ⟨k, hk, hy⟩)

/-- **A tree without cycles stays so exactly under moves that are refused or lead outward.** -/
theorem acyclic_move_iff (h : t.links.Acyclic) (m : Move) :
    (t.move m).2.links.Acyclic ↔ (t.move m).1 = false ∨ t.Outward m := by
  cases m with
  | insert l id => exact acyclic_iff_of_simulates h (t.simulates_insert l id)
  | pushBack l id => exact acyclic_iff_of_simulates h (t.simulates_pushBack l id)
  | insertAfter anchor id => exact acyclic_iff_of_simulates h (t.simulates_insertAfter anchor id)
  | splice id => exact acyclic_iff_of_simulates h (t.simulates_splice id)
  | towardHead id => exact acyclic_iff_of_simulates h (t.simulates_moveTowardHead id)
  | towardTail id => exact acyclic_iff_of_simulates h (t.simulates_moveTowardTail id)

/-! ### What is attached -/

/-- **What is planted may go into any list that was made before.** -/
theorem outward_plant (t : Tree α) (b : Branch α) {l : ListId} (hl : l.key < t.siblings.nextKey) :
    (t.plant b).2.Outward (.pushBack l (t.plant b).1) := by
  rintro k o ⟨⟩ ho
  have hplanted := t.planted_plant b
  obtain ⟨r, hr, hro⟩ := Option.bind_eq_some_iff.mp ho
  obtain ⟨q, hq⟩ : ∃ q, t.links.list? l = some q := by
    rcases (t.later_plant b).made l (Option.isSome_iff_exists.mpr ⟨r, hr⟩) with hold | hnew
    · exact Option.isSome_iff_exists.mp hold
    · exact absurd hl (Nat.not_lt_of_le hnew)
  obtain rfl : q = r := Option.some.inj ((hplanted.grown.list hq).symm.trans hr)
  exact hplanted.not_descends_owner t.sound hq hro

/-- **A copy may go behind any node that was there before.** -/
theorem outward_planted {u : Tree α} {id copy : NodeId} {b : Branch α}
    (h : t.links.Planted copy b u.links) (hid : t.contains id) :
    u.Outward (.insertAfter id copy) := by
  rintro l o ⟨⟩ ho
  rename_i hmem
  have hlist : t.links.listOf? id = some l :=
    (h.grown.listOf? hid).symm.trans (u.sound.holds.listOf?_eq_some_iff.mpr hmem)
  obtain ⟨q, hq⟩ := Option.isSome_iff_exists.mp
    (t.sound.holds.alive l id (t.sound.holds.listOf?_eq_some_iff.mp hlist)).2
  obtain ⟨r, hr, hro⟩ := Option.bind_eq_some_iff.mp ho
  obtain rfl : q = r := Option.some.inj ((h.grown.list hq).symm.trans hr)
  exact h.not_descends_owner t.sound hq hro

end Step

end Tree

end Toolpath
