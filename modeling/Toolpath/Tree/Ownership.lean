import Toolpath.Tree.Order

/-!
# Owners

A list may be owned by a node, and both know it: the list names its owner, and the owner has it
among its lists. A store whose links are in order and whose owners agree with their lists is
`Sound`. That is the invariant of the whole store, and every operation keeps it.

While a node is destroyed its lists are still there although it is gone. Such a list is an *orphan*:
it names an owner that no longer knows it. `Owned` and `Ordered` therefore speak of the orphans that
are still to be destroyed, and a store is sound where there are none. The order in which things are
destroyed is that of a stack: a node goes, its lists become orphans, and each of them is emptied and
erased before the lists that were orphans already.

## Main definitions

* `Links.Owned`, `Links.Ordered` — owners and lists that agree, up to some orphans
* `Links.Sound` — the invariant
* `Links.Rearranged` — the store after an operation on places, described by its rows
* `Links.Shrinks`, `Links.Under`, `Links.Loses` — what is left and what is lost where something is
  destroyed

## Main results

* `Links.Sound.splice`, `Sound.insertAfter`, … — operations on places: where they refuse, and the
  rows that they make elsewhere
* `Links.destroys_and_empties` — destroying ends, does not fault and leaves no orphans
-/

namespace Toolpath

namespace Links

variable {α : Type}

/-! ### The invariant -/

/-- The lists and their owners agree, except for the orphans. -/
structure Owned (s : Links α) (orphans : List ListId) : Prop where
  /-- An owner is alive and knows its list. -/
  listed : ∀ {l r o}, s.list? l = some r → r.owner = some o → l ∉ orphans →
    ∃ n, s.node? o = some n ∧ l ∈ n.lists
  /-- The lists that a node knows are alive and its own. -/
  owned : ∀ {o n l}, s.node? o = some n → l ∈ n.lists →
    l ∉ orphans ∧ ∃ r, s.list? l = some r ∧ r.owner = some o
  /-- No list is twice among the lists of a node. -/
  nodup : ∀ {o n}, s.node? o = some n → n.lists.Nodup

/-- The links are those of the rows that a walk finds, and lists and owners agree, except for the
orphans. -/
structure Ordered (s : Links α) (orphans : List ListId) : Prop where
  /-- The rows are the members. -/
  holds : s.Holds s.members
  /-- Lists and owners agree. -/
  owned : s.Owned orphans

/-- **The store is in order.** -/
def Sound (s : Links α) : Prop := s.Ordered []

/-- The second store is in order and is the first one with its members rearranged to `rows`. -/
structure Rearranged (s s' : Links α) (rows : ListId → List NodeId) : Prop where
  /-- It is in order. -/
  sound : s'.Sound
  /-- It has these members. -/
  members : s'.members = rows
  /-- It has the same nodes, items, lists and owners. -/
  relinked : s.Relinked s'

theorem Holds.ordered {s : Links α} {rows : ListId → List NodeId} {orphans : List ListId}
    (h : s.Holds rows) (ho : s.Owned orphans) : s.Ordered orphans :=
  ⟨h.members_eq ▸ h, ho⟩

theorem sound_empty : (empty : Links α).Sound := by
  have hnode (x : NodeId) : (empty : Links α).node? x = none := Arena.get?_empty _
  have hlist (l : ListId) : (empty : Links α).list? l = none := Arena.get?_empty _
  have hrows : (empty : Links α).Holds fun _ => [] := by
    refine ⟨?_, ?_, ?_, ?_⟩ <;> simp [hnode, hlist]
  refine hrows.ordered ⟨?_, ?_, ?_⟩ <;> simp [hnode, hlist]

/-- The owner of a list is the node that has it among its lists. -/
theorem Sound.owner_eq_some_iff {s : Links α} (h : s.Sound) {l : ListId} {o : NodeId} :
    (s.list? l).bind (·.owner) = some o ↔ ∃ n, s.node? o = some n ∧ l ∈ n.lists := by
  constructor
  · intro ho
    obtain ⟨r, hr, hro⟩ := Option.bind_eq_some_iff.mp ho
    exact h.owned.listed hr hro List.not_mem_nil
  · rintro ⟨n, hn, hmem⟩
    obtain ⟨-, r, hr, hro⟩ := h.owned.owned hn hmem
    rw [hr]
    exact hro

/-! ### Operations on places

They change neither owners nor the lists of a node, so all that is left to say is what they do to
the rows. -/

theorem Relinked.node?_lists {s s' : Links α} (h : s.Relinked s') {x : NodeId} {n : TreeNode α}
    (hn : s'.node? x = some n) : ∃ m, s.node? x = some m ∧ m.item = n.item ∧ m.lists = n.lists := by
  have hx := h.node x
  rw [hn, Option.map_some] at hx
  obtain ⟨m, hm, hmn⟩ := Option.map_eq_some_iff.mp hx.symm
  exact ⟨m, hm, congrArg Prod.fst hmn, congrArg Prod.snd hmn⟩

theorem Relinked.list?_owner {s s' : Links α} (h : s.Relinked s') {l : ListId} {r : Siblings}
    (hr : s'.list? l = some r) : ∃ q, s.list? l = some q ∧ q.owner = r.owner := by
  have hl := h.list l
  rw [hr, Option.map_some] at hl
  exact Option.map_eq_some_iff.mp hl.symm

theorem Owned.relink {s s' : Links α} {orphans : List ListId} (h : s.Owned orphans)
    (hr : s.Relinked s') : s'.Owned orphans where
  listed := fun {l r o} hl ho hout => by
    obtain ⟨q, hq, hqo⟩ := hr.list?_owner hl
    obtain ⟨n, hn, hmem⟩ := h.listed hq (hqo.trans ho) hout
    obtain ⟨m, hm, -, hlists⟩ := hr.symm.node?_lists hn
    exact ⟨m, hm, hlists ▸ hmem⟩
  owned := fun {o n l} hn hmem => by
    obtain ⟨m, hm, -, hlists⟩ := hr.node?_lists hn
    obtain ⟨hout, r, hl, ho⟩ := h.owned hm (hlists ▸ hmem)
    obtain ⟨q, hq, hqo⟩ := hr.symm.list?_owner hl
    exact ⟨hout, q, hq, hqo.trans ho⟩
  nodup := fun {o n} hn => by
    obtain ⟨m, hm, -, hlists⟩ := hr.node?_lists hn
    exact hlists ▸ h.nodup hm

theorem Sound.rearranged {s s' : Links α} (h : s.Sound) {rows : ListId → List NodeId}
    (hrows : s'.Holds rows) (hr : s.Relinked s') : s.Rearranged s' rows :=
  ⟨hrows.ordered (h.owned.relink hr), hrows.members_eq, hr⟩

theorem Sound.splice {s : Links α} (h : s.Sound) (id : NodeId) :
    ∃ s', s.splice id = .ok ((s.listOf? id).isSome, s') ∧
      s.Rearranged s' (without s.members id) := by
  obtain ⟨s', hs', hrows, hr⟩ := splice_spec h.holds id
  exact ⟨s', hs', h.rearranged hrows hr⟩

theorem Sound.insertAfter {s : Links α} (h : s.Sound) {anchor id : NodeId} {l : ListId}
    (hne : anchor ≠ id) (hid : s.contains id) (ha : s.listOf? anchor = some l) :
    ∃ s', s.insertAfter anchor id = .ok (true, s') ∧ s.Rearranged s'
      (put (without s.members id) l (Row.insertBehind anchor id ((s.members l).erase id))) := by
  obtain ⟨s', hs', hrows, hr⟩ :=
    insertAfter_spec h.holds hne hid (h.holds.listOf?_eq_some_iff.mp ha)
  exact ⟨s', hs', h.rearranged hrows hr⟩

theorem Sound.insert {s : Links α} (h : s.Sound) {l : ListId} {id : NodeId} (hid : s.contains id)
    (hl : (s.list? l).isSome) :
    ∃ s', s.insert l id = .ok (true, s') ∧ s.Rearranged s'
      (put (without s.members id) l (Row.behindHead id (s.members l))) := by
  obtain ⟨s', hs', hrows, hr⟩ := insert_spec h.holds hid hl
  exact ⟨s', hs', h.rearranged hrows hr⟩

theorem Sound.pushBack {s : Links α} (h : s.Sound) {l : ListId} {id : NodeId} (hid : s.contains id)
    (hl : (s.list? l).isSome) :
    ∃ s', s.pushBack l id = .ok (true, s') ∧ s.Rearranged s'
      (put (without s.members id) l (Row.atTail id (s.members l))) := by
  obtain ⟨s', hs', hrows, hr⟩ := pushBack_spec h.holds hid hl
  exact ⟨s', hs', h.rearranged hrows hr⟩

theorem Sound.swap [Lockable α] {s : Links α} (h : s.Sound) {a b : NodeId} {l : ListId}
    (hab : Row.after a (s.members l) = some b) (hfree : (s.isLocked a || s.isLocked b) = false) :
    ∃ s', s.swap a b = .ok (true, s') ∧ s.Rearranged s'
      (put s.members l (Row.exchange a b (s.members l))) := by
  obtain ⟨s', hs', hrows, hr⟩ := swap_spec h.holds hab hfree
  exact ⟨s', hs', h.rearranged hrows hr⟩

/-! ### Nothing faults

What the program needs of each operation: that it ends in a store that is in order. -/

/-- The operation does not fault and leaves the store in order. -/
def Settles {β : Type} (r : Except Fault (β × Links α)) : Prop := ∃ b s, r = .ok (b, s) ∧ s.Sound

theorem Settles.map_snd {β : Type} {r : Except Fault (β × Links α)} (h : Settles r) :
    ∃ s', r.map Prod.snd = .ok s' ∧ s'.Sound := by
  obtain ⟨b, s', rfl, hs'⟩ := h
  exact ⟨s', rfl, hs'⟩

theorem Sound.settles_splice {s : Links α} (h : s.Sound) (id : NodeId) : Settles (s.splice id) := by
  obtain ⟨s', hs', hr⟩ := h.splice id
  exact ⟨_, s', hs', hr.sound⟩

theorem Sound.settles_insertAfter {s : Links α} (h : s.Sound) (anchor id : NodeId) :
    Settles (s.insertAfter anchor id) := by
  by_cases hgo : anchor = id ∨ s.contains id = false ∨ s.listOf? anchor = none
  · exact ⟨_, s, insertAfter_of_refused hgo, h⟩
  · obtain ⟨hne, hid, ha⟩ := by simpa only [not_or] using hgo
    obtain ⟨l, hl⟩ := Option.ne_none_iff_exists'.mp ha
    obtain ⟨s', hs', hr⟩ := h.insertAfter hne (by simpa using hid) hl
    exact ⟨_, s', hs', hr.sound⟩

theorem Sound.settles_insert {s : Links α} (h : s.Sound) (l : ListId) (id : NodeId) :
    Settles (s.insert l id) := by
  by_cases hgo : s.contains id = false ∨ s.list? l = none
  · exact ⟨_, s, insert_of_refused hgo, h⟩
  · obtain ⟨hid, hl⟩ := not_or.mp hgo
    obtain ⟨s', hs', hr⟩ := h.insert (by simpa using hid) (Option.isSome_iff_ne_none.mpr hl)
    exact ⟨_, s', hs', hr.sound⟩

theorem Sound.settles_pushBack {s : Links α} (h : s.Sound) (l : ListId) (id : NodeId) :
    Settles (s.pushBack l id) := by
  by_cases hgo : s.contains id = false ∨ s.list? l = none
  · exact ⟨_, s, pushBack_of_refused hgo, h⟩
  · obtain ⟨hid, hl⟩ := not_or.mp hgo
    obtain ⟨s', hs', hr⟩ := h.pushBack (by simpa using hid) (Option.isSome_iff_ne_none.mpr hl)
    exact ⟨_, s', hs', hr.sound⟩

section Locks

variable [Lockable α]

theorem Sound.settles_swap {s : Links α} (h : s.Sound) {a b : NodeId} {l : ListId}
    (hab : Row.after a (s.members l) = some b) : Settles (s.swap a b) := by
  cases hfree : s.isLocked a || s.isLocked b with
  | true => exact ⟨_, s, swap_of_locked hfree, h⟩
  | false =>
    obtain ⟨s', hs', hr⟩ := h.swap hab hfree
    exact ⟨_, s', hs', hr.sound⟩

theorem Sound.settles_moveTowardHead {s : Links α} (h : s.Sound) (id : NodeId) :
    Settles (s.moveTowardHead id) := by
  unfold moveTowardHead
  cases hp : s.prev? id with
  | none => exact ⟨_, s, rfl, h⟩
  | some p =>
    obtain ⟨l, hl⟩ := h.holds.prev?_eq_some_iff.mp hp
    exact h.settles_swap hl

theorem Sound.settles_moveTowardTail {s : Links α} (h : s.Sound) (id : NodeId) :
    Settles (s.moveTowardTail id) := by
  unfold moveTowardTail
  cases hn : s.next? id with
  | none => exact ⟨_, s, rfl, h⟩
  | some n =>
    obtain ⟨l, hl⟩ := h.holds.next?_eq_some_iff.mp hn
    exact h.settles_swap hl

end Locks

/-! ### Making nodes and lists

A further node is in no row and a further list has an empty one, so the rows stay. -/

section Making

variable {s : Links α} {rows : ListId → List NodeId} {orphans : List ListId}

theorem node?_create (s : Links α) (item : α) (x : NodeId) :
    (s.create item).2.node? x =
      if x = (s.create item).1 then some { item := item } else s.node? x := by
  have hkey : x.key = s.nodes.nextKey ↔ x = ⟨s.nodes.nextKey⟩ := by cases x; simp
  simp only [create, node?, Arena.get?_push, hkey]
  congr

@[simp] theorem list?_create (s : Links α) (item : α) (l : ListId) :
    (s.create item).2.list? l = s.list? l := rfl

@[simp] theorem node?_fresh (s : Links α) : s.node? ⟨s.nodes.nextKey⟩ = none := by
  simp [node?]

@[simp] theorem list?_fresh (s : Links α) : s.list? ⟨s.siblings.nextKey⟩ = none := by
  simp [list?]

theorem Holds.create (h : s.Holds rows) (item : α) : (s.create item).2.Holds rows := by
  have hfresh : ∀ l, (s.create item).1 ∉ rows l := fun l hmem => by
    have := (h.alive l _ hmem).1
    simp [contains, Links.create] at this
  refine ⟨h.nodup, fun l x hx => ?_, fun x n hn => ?_, h.list⟩
  · obtain ⟨hn, hl⟩ := h.alive l x hx
    refine ⟨?_, hl⟩
    rw [contains, node?_create]
    split
    · rfl
    · exact hn
  · rw [node?_create] at hn
    split at hn
    · rename_i hx
      obtain rfl := Option.some.inj hn
      have hout (l : ListId) : x ∉ rows l := hx ▸ hfresh l
      exact ⟨fun l => by simp [hout l], fun l hl => absurd hl (hout l),
        fun l hl => absurd hl (hout l), fun _ => ⟨rfl, rfl⟩⟩
    · exact h.node x n hn

theorem Owned.create (h : s.Owned orphans) (item : α) : (s.create item).2.Owned orphans where
  listed := fun {l r o} hl ho hout => by
    obtain ⟨n, hn, hmem⟩ := h.listed hl ho hout
    have hne : o ≠ (s.create item).1 := by rintro rfl; simp [Links.create] at hn
    exact ⟨n, by rw [node?_create, if_neg hne, hn], hmem⟩
  owned := fun {o n l} hn hmem => by
    rw [node?_create] at hn
    split at hn
    · obtain rfl := Option.some.inj hn
      simp at hmem
    · exact h.owned hn hmem
  nodup := fun {o n} hn => by
    rw [node?_create] at hn
    split at hn
    · obtain rfl := Option.some.inj hn
      simp
    · exact h.nodup hn

theorem node?_newList (s : Links α) (owner : Option NodeId) (x : NodeId) :
    (s.newList owner).2.node? x = (s.node? x).map fun n =>
      if owner = some x then { n with lists := n.lists ++ [(s.newList owner).1] } else n := by
  cases owner with
  | none => simp [newList, node?]
  | some o =>
    by_cases ho : s.contains o
    · simp only [newList, Option.filter_some, ho, if_true, node?_withNode]
      show (s.node? x).map _ = _
      congr 1; funext n
      by_cases hx : x = o
      · subst hx; simp
      · simp [hx, Ne.symm hx]
    · have hdead : s.node? o = none := by simpa [contains] using ho
      simp only [newList, Option.filter_some, ho]
      show s.node? x = _
      by_cases hx : x = o
      · subst hx; simp [hdead]
      · simp [Ne.symm hx]

theorem fst_newList (s : Links α) (owner : Option NodeId) :
    (s.newList owner).1 = ⟨s.siblings.nextKey⟩ := by
  unfold newList
  cases Option.filter s.contains owner <;> rfl

theorem list?_newList (s : Links α) (owner : Option NodeId) (l : ListId) :
    (s.newList owner).2.list? l = if l = (s.newList owner).1 then
      some { owner := owner.filter s.contains } else s.list? l := by
  have hkey : l.key = s.siblings.nextKey ↔ l = ⟨s.siblings.nextKey⟩ := by cases l; simp
  rw [fst_newList]
  unfold newList
  cases Option.filter s.contains owner with
  | none => simp only [list?, Arena.get?_push, hkey]
  | some o =>
    simp only [list?_withNode]
    simp only [list?, Arena.get?_push, hkey]

theorem Holds.newList (h : s.Holds rows) (owner : Option NodeId) :
    (s.newList owner).2.Holds rows := by
  have hempty : rows (s.newList owner).1 = [] := h.row_of_dead (by rw [fst_newList]; simp)
  refine ⟨h.nodup, fun l x hx => ?_, fun x n' hn' => ?_, fun l r hr => ?_⟩
  · obtain ⟨hn, hl⟩ := h.alive l x hx
    refine ⟨by simpa [contains, node?_newList] using hn, ?_⟩
    rw [list?_newList]
    split
    · rfl
    · exact hl
  · rw [node?_newList] at hn'
    obtain ⟨n, hn, rfl⟩ := Option.map_eq_some_iff.mp hn'
    obtain ⟨hlist, hprev, hnext, hloose⟩ := h.node x n hn
    split <;> exact ⟨hlist, hprev, hnext, hloose⟩
  · rw [list?_newList] at hr
    split at hr
    · rename_i hl
      obtain rfl := Option.some.inj hr
      rw [hl, hempty]
      exact ⟨rfl, rfl, rfl⟩
    · exact h.list l r hr

theorem Owned.newList_not_mem (h : s.Owned orphans) {owner : Option NodeId} {o : NodeId}
    {n : TreeNode α} (hn : s.node? o = some n) : (s.newList owner).1 ∉ n.lists := by
  intro hmem
  obtain ⟨-, r, hr, -⟩ := h.owned hn hmem
  rw [fst_newList, list?_fresh] at hr
  cases hr

theorem Owned.newList (h : s.Owned []) (owner : Option NodeId) : (s.newList owner).2.Owned [] where
  listed := fun {l r o} hl ho hout => by
    rw [list?_newList] at hl
    rw [node?_newList]
    split at hl
    · rename_i hfresh
      obtain rfl := Option.some.inj hl
      obtain ⟨rfl, hc⟩ := Option.filter_eq_some_iff.mp ho
      obtain ⟨n, hn⟩ := Option.isSome_iff_exists.mp hc
      exact ⟨_, by rw [hn]; rfl, by simp [hfresh]⟩
    · obtain ⟨n, hn, hmem⟩ := h.listed hl ho hout
      refine ⟨_, by rw [hn]; rfl, ?_⟩
      split
      · exact List.mem_append_left _ hmem
      · exact hmem
  owned := fun {o n' l} hn' hmem => by
    rw [node?_newList] at hn'
    obtain ⟨n, hn, rfl⟩ := Option.map_eq_some_iff.mp hn'
    rw [list?_newList]
    by_cases hl : l = (s.newList owner).1
    · rw [if_pos hl]
      split at hmem
      · rename_i ho
        exact ⟨List.not_mem_nil, _, rfl, by simp [ho, Option.filter_some, contains, hn]⟩
      · exact absurd (hl ▸ hmem) (h.newList_not_mem hn)
    · rw [if_neg hl]
      refine h.owned hn ?_
      split at hmem
      · simpa [hl] using hmem
      · exact hmem
  nodup := fun {o n'} hn' => by
    rw [node?_newList] at hn'
    obtain ⟨n, hn, rfl⟩ := Option.map_eq_some_iff.mp hn'
    have hd := h.nodup hn
    split
    · refine List.nodup_append.mpr ⟨hd, by simp, ?_⟩
      rintro a ha b hb rfl
      obtain rfl := List.mem_singleton.mp hb
      exact h.newList_not_mem hn ha
    · exact hd

theorem node?_modify (s : Links α) (id : NodeId) (f : α → α) (x : NodeId) :
    (s.modify id f).node? x =
      (s.node? x).map fun n => if x = id then { n with item := f n.item } else n :=
  node?_withNode s id _ x

@[simp] theorem list?_modify (s : Links α) (id : NodeId) (f : α → α) (l : ListId) :
    (s.modify id f).list? l = s.list? l := rfl

theorem Holds.modify (h : s.Holds rows) (id : NodeId) (f : α → α) : (s.modify id f).Holds rows := by
  refine Holds.of_map (G := fun _ r => r) (node?_modify s id f)
    (fun l => (Option.map_id' ..).symm) h.nodup h.alive (fun x n hn => ?_) h.list
  obtain ⟨hlist, hprev, hnext, hloose⟩ := h.node x n hn
  split <;> exact ⟨hlist, hprev, hnext, hloose⟩

theorem Owned.modify (h : s.Owned orphans) (id : NodeId) (f : α → α) :
    (s.modify id f).Owned orphans where
  listed := fun {l r o} hl ho hout => by
    obtain ⟨n, hn, hmem⟩ := h.listed hl ho hout
    refine ⟨_, by rw [node?_modify, hn]; rfl, ?_⟩
    split <;> exact hmem
  owned := fun {o n' l} hn' hmem => by
    rw [node?_modify] at hn'
    obtain ⟨n, hn, rfl⟩ := Option.map_eq_some_iff.mp hn'
    exact h.owned hn (by split at hmem <;> exact hmem)
  nodup := fun {o n'} hn' => by
    rw [node?_modify] at hn'
    obtain ⟨n, hn, rfl⟩ := Option.map_eq_some_iff.mp hn'
    have := h.nodup hn
    split <;> exact this

theorem Sound.create (h : s.Sound) (item : α) : (s.create item).2.Sound :=
  (h.holds.create item).ordered (h.owned.create item)

theorem Sound.newList (h : s.Sound) (owner : Option NodeId) : (s.newList owner).2.Sound :=
  (h.holds.newList owner).ordered (h.owned.newList owner)

theorem Sound.modify (h : s.Sound) (id : NodeId) (f : α → α) : (s.modify id f).Sound :=
  (h.holds.modify id f).ordered (h.owned.modify id f)

theorem Sound.members_create (h : s.Sound) (item : α) : (s.create item).2.members = s.members :=
  (h.holds.create item).members_eq

theorem Sound.members_newList (h : s.Sound) (owner : Option NodeId) :
    (s.newList owner).2.members = s.members :=
  (h.holds.newList owner).members_eq

end Making

/-! ### Destroying

Every node that is destroyed takes one off the number of nodes alive, which the fuel counts twice:
once for the node and once for the list that is looked at again behind it. -/

section Destroying

variable {s : Links α} {rows : ListId → List NodeId} {orphans : List ListId}

theorem node?_eraseNode (s : Links α) (id x : NodeId) :
    (s.eraseNode id).node? x = if x = id then none else s.node? x := by
  have hkey : x.key = id.key ↔ x = id := by cases x; cases id; simp
  simp only [eraseNode, node?, Arena.get?_erase, hkey]

@[simp] theorem list?_eraseNode (s : Links α) (id : NodeId) (l : ListId) :
    (s.eraseNode id).list? l = s.list? l := rfl

theorem list?_eraseList (s : Links α) (l k : ListId) :
    (s.eraseList l).list? k = if k = l then none else s.list? k := by
  have hkey : k.key = l.key ↔ k = l := by cases k; cases l; simp
  simp only [eraseList, list?, Arena.get?_erase, hkey]

@[simp] theorem node?_eraseList (s : Links α) (l : ListId) (x : NodeId) :
    (s.eraseList l).node? x = s.node? x := rfl

theorem size_eraseNode {id : NodeId} (h : s.contains id) : (s.eraseNode id).size + 1 = s.size := by
  obtain ⟨n, hn⟩ := Option.isSome_iff_exists.mp h
  exact Arena.size_erase hn

@[simp] theorem size_eraseList (s : Links α) (l : ListId) : (s.eraseList l).size = s.size := rfl

theorem Holds.eraseNode (h : s.Holds rows) {id : NodeId} (hid : ∀ l, id ∉ rows l) :
    (s.eraseNode id).Holds rows where
  nodup := h.nodup
  alive := fun l x hx => by
    obtain ⟨hn, hl⟩ := h.alive l x hx
    have hne : x ≠ id := fun he => hid l (he ▸ hx)
    exact ⟨by rw [contains, node?_eraseNode, if_neg hne]; exact hn, hl⟩
  node := fun x n hn => by
    rw [node?_eraseNode] at hn
    split at hn
    · cases hn
    · exact h.node x n hn
  list := h.list

theorem Holds.eraseList (h : s.Holds rows) {l : ListId} (hl : rows l = []) :
    (s.eraseList l).Holds rows where
  nodup := h.nodup
  alive := fun k x hx => by
    obtain ⟨hn, hk⟩ := h.alive k x hx
    have hne : k ≠ l := fun he => by rw [he, hl] at hx; cases hx
    exact ⟨hn, by rw [list?_eraseList, if_neg hne]; exact hk⟩
  node := h.node
  list := fun k r hr => by
    rw [list?_eraseList] at hr
    split at hr
    · cases hr
    · exact h.list k r hr

/-- The lists of an erased node become orphans. -/
theorem Owned.eraseNode (h : s.Owned orphans) {id : NodeId} {n : TreeNode α}
    (hn : s.node? id = some n) : (s.eraseNode id).Owned (n.lists ++ orphans) where
  listed := fun {l r o} hl ho hout => by
    obtain ⟨hnot, hout⟩ := not_or.mp (mt List.mem_append.mpr hout)
    obtain ⟨m, hm, hmem⟩ := h.listed hl ho hout
    have hne : o ≠ id := by
      rintro rfl
      obtain rfl := Option.some.inj (hn.symm.trans hm)
      exact hnot hmem
    exact ⟨m, by rw [node?_eraseNode, if_neg hne, hm], hmem⟩
  owned := fun {o m l} hm hmem => by
    rw [node?_eraseNode] at hm
    split at hm
    · cases hm
    · rename_i hne
      obtain ⟨hout, r, hr, ho⟩ := h.owned hm hmem
      refine ⟨fun hl => ?_, r, hr, ho⟩
      rcases List.mem_append.mp hl with hl | hl
      · obtain ⟨-, q, hq, hqo⟩ := h.owned hn hl
        obtain rfl := Option.some.inj (hr.symm.trans hq)
        exact hne (Option.some.inj (ho.symm.trans hqo))
      · exact hout hl
  nodup := fun {o m} hm => by
    rw [node?_eraseNode] at hm
    split at hm
    · cases hm
    · exact h.nodup hm

/-- An orphan that is erased is none any more. -/
theorem Owned.eraseList {l : ListId} (h : s.Owned (l :: orphans)) :
    (s.eraseList l).Owned orphans where
  listed := fun {k r o} hk ho hout => by
    rw [list?_eraseList] at hk
    split at hk
    · cases hk
    · rename_i hne
      exact h.listed hk ho (by simp [hne, hout])
  owned := fun {o n k} hn hmem => by
    obtain ⟨hout, r, hr, ho⟩ := h.owned hn hmem
    obtain ⟨hne, hout⟩ := not_or.mp (mt List.mem_cons.mpr hout)
    exact ⟨hout, r, by rw [list?_eraseList, if_neg hne, hr], ho⟩
  nodup := h.nodup

theorem Ordered.members_of_head? (h : s.Ordered orphans) {l : ListId} (hl : s.head? l = none) :
    s.members l = [] := by
  cases hr : s.list? l with
  | none => exact h.holds.row_of_dead hr
  | some r =>
    rw [h.holds.head?_eq (by rw [hr]; rfl)] at hl
    exact List.head?_eq_none_iff.mp hl

theorem Ordered.mem_head? (h : s.Ordered orphans) {l : ListId} {x : NodeId}
    (hx : s.head? l = some x) : x ∈ s.members l := by
  obtain ⟨r, hr, -⟩ := Option.bind_eq_some_iff.mp hx
  rw [h.holds.head?_eq (by rw [hr]; rfl)] at hx
  exact List.mem_of_head? hx

theorem Ordered.contains_head? (h : s.Ordered orphans) {l : ListId} {x : NodeId}
    (hx : s.head? l = some x) : s.contains x :=
  (h.holds.alive l x (h.mem_head? hx)).1

theorem Ordered.splice (h : s.Ordered orphans) (id : NodeId) :
    ∃ b s', s.splice id = .ok (b, s') ∧ s'.Ordered orphans ∧ s.Relinked s' ∧
      s'.members = without s.members id := by
  obtain ⟨s', hs', hrows, hr⟩ := splice_spec h.holds id
  exact ⟨_, s', hs', hrows.ordered (h.owned.relink hr), hr, hrows.members_eq⟩

/-- The second store is the first one with some nodes gone, and with lists gone that had owners. -/
structure Shrinks (s s' : Links α) : Prop where
  /-- What is left has the item and the lists that it had. -/
  node : ∀ {x n}, s'.node? x = some n →
    ∃ m, s.node? x = some m ∧ m.item = n.item ∧ m.lists = n.lists
  /-- A list that is left has the owner that it had. -/
  list : ∀ {l r}, s'.list? l = some r → ∃ q, s.list? l = some q ∧ q.owner = r.owner
  /-- A list without an owner is left. -/
  free : ∀ {l r}, s.list? l = some r → r.owner = none → ∃ q, s'.list? l = some q ∧ q.owner = none
  /-- The members of a list that are left are in it, in their order. -/
  members : ∀ l, s'.members l = (s.members l).filter s'.contains
  /-- No node is made. -/
  counted : s'.nodes.nextKey = s.nodes.nextKey
  /-- No list is made. -/
  made : s'.siblings.nextKey = s.siblings.nextKey

/-- The node meets a condition, or is below a node that does. The way up goes by the owners that
lists name, so that it also leads out of an orphan. -/
inductive Under (s : Links α) (P : NodeId → Prop) : NodeId → Prop where
  /-- It meets the condition. -/
  | top {x : NodeId} (h : P x) : Under s P x
  /-- It is in a list of a node for which this holds. -/
  | member {x o : NodeId} {l : ListId} {r : Siblings} (hx : x ∈ s.members l)
    (hr : s.list? l = some r) (ho : r.owner = some o) (h : Under s P o) : Under s P x

/-- All that the second store has lost are nodes that meet a condition, and what is below these. -/
def Loses (s s' : Links α) (P : NodeId → Prop) : Prop :=
  ∀ x, s.contains x → s'.contains x = false → s.Under P x

theorem Shrinks.contains {s s' : Links α} (h : s.Shrinks s') {x : NodeId} (hx : s'.contains x) :
    s.contains x := by
  obtain ⟨n, hn⟩ := Option.isSome_iff_exists.mp hx
  obtain ⟨m, hm, -⟩ := h.node hn
  exact Option.isSome_iff_exists.mpr ⟨m, hm⟩

theorem Shrinks.gone {s s' : Links α} (h : s.Shrinks s') {x : NodeId} (hx : s.contains x = false) :
    s'.contains x = false :=
  Bool.eq_false_iff.mpr fun hx' => Bool.eq_false_iff.mp hx (h.contains hx')

theorem Shrinks.mem {s s' : Links α} (h : s.Shrinks s') {l : ListId} {x : NodeId}
    (hx : x ∈ s'.members l) : x ∈ s.members l := by
  rw [h.members] at hx
  exact (List.mem_filter.mp hx).1

theorem Ordered.shrinks_refl (h : s.Ordered orphans) : s.Shrinks s where
  node := fun hn => ⟨_, hn, rfl, rfl⟩
  list := fun hr => ⟨_, hr, rfl⟩
  free := fun hr ho => ⟨_, hr, ho⟩
  members := fun l => (List.filter_eq_self.mpr fun x hx => (h.holds.alive l x hx).1).symm
  counted := rfl
  made := rfl

theorem Shrinks.trans {s s' s'' : Links α} (h : s.Shrinks s') (h' : s'.Shrinks s'') :
    s.Shrinks s'' where
  node := fun hn => by
    obtain ⟨m, hm, hitem, hlists⟩ := h'.node hn
    obtain ⟨k, hk, hitem', hlists'⟩ := h.node hm
    exact ⟨k, hk, hitem'.trans hitem, hlists'.trans hlists⟩
  list := fun hr => by
    obtain ⟨q, hq, ho⟩ := h'.list hr
    obtain ⟨p, hp, ho'⟩ := h.list hq
    exact ⟨p, hp, ho'.trans ho⟩
  free := fun hr ho => by
    obtain ⟨q, hq, ho'⟩ := h.free hr ho
    exact h'.free hq ho'
  members := fun l => by
    rw [h'.members, h.members, List.filter_filter]
    refine List.filter_congr fun x _ => ?_
    cases hx : s''.contains x with
    | false => rfl
    | true => rw [h'.contains hx, Bool.and_self]
  counted := h'.counted.trans h.counted
  made := h'.made.trans h.made

theorem Under.mono {s : Links α} {P Q : NodeId → Prop} {x : NodeId} (h : s.Under P x)
    (hPQ : ∀ y, P y → s.Under Q y) : s.Under Q x := by
  induction h with
  | top hx => exact hPQ _ hx
  | member hx hr ho _ ih => exact .member hx hr ho ih

/-- What is below a node was below it before. -/
theorem Under.of_shrinks {s s' : Links α} (hs : s.Shrinks s') {P : NodeId → Prop} {x : NodeId}
    (h : s'.Under P x) : s.Under P x := by
  induction h with
  | top hx => exact .top hx
  | member hx hr ho _ ih =>
    obtain ⟨q, hq, hqo⟩ := hs.list hr
    exact .member (hs.mem hx) hq (hqo.trans ho) ih

/-- Where no orphans are left, nothing is left below what is gone. -/
theorem Shrinks.gone_of_under {s s' : Links α} (h : s.Shrinks s') (hsound : s'.Sound)
    {P : NodeId → Prop} (hP : ∀ y, P y → s'.contains y = false) {x : NodeId} (hx : s.Under P x) :
    s'.contains x = false := by
  induction hx with
  | top hx => exact hP _ hx
  | @member x o l r hx hr ho _ ih =>
    refine Bool.eq_false_iff.mpr fun hleft => ?_
    -- its list would be left, and an owner that the list names is alive
    have hmem : x ∈ s'.members l := by
      rw [h.members]
      exact List.mem_filter.mpr ⟨hx, hleft⟩
    obtain ⟨r', hr'⟩ := Option.isSome_iff_exists.mp (hsound.holds.alive l x hmem).2
    obtain ⟨q, hq, hqo⟩ := h.list hr'
    obtain rfl := Option.some.inj (hr.symm.trans hq)
    obtain ⟨n, hn, -⟩ := hsound.owned.listed hr' (hqo.symm.trans ho) List.not_mem_nil
    rw [Links.contains, hn] at ih
    cases ih

theorem Loses.mono {s s' : Links α} {P Q : NodeId → Prop} (h : s.Loses s' P)
    (hPQ : ∀ x, P x → s.Under Q x) : s.Loses s' Q :=
  fun x hx hx' => (h x hx hx').mono hPQ

/-- What is lost in two steps. -/
theorem Loses.trans {s s' s'' : Links α} {P : NodeId → Prop} (h : s.Loses s' P)
    (hs : s.Shrinks s') (h' : s'.Loses s'' P) : s.Loses s'' P := by
  intro x hx hx''
  cases hx' : s'.contains x with
  | false => exact h x hx hx'
  | true => exact (h' x hx' hx'').of_shrinks hs

/-- A node that is taken out of its list and erased. -/
theorem Ordered.shrinks_eraseNode (h : s.Ordered orphans) {s' : Links α} (hr : s.Relinked s')
    {id : NodeId} (hmembers : s'.members = without s.members id)
    (hrows : (s'.eraseNode id).Holds s'.members) : s.Shrinks (s'.eraseNode id) where
  node := fun hn => by
    rw [node?_eraseNode] at hn
    split at hn
    · cases hn
    · exact hr.node?_lists hn
  list := fun hl => hr.list?_owner hl
  free := fun hl ho => by
    obtain ⟨q, hq, hqo⟩ := hr.symm.list?_owner hl
    exact ⟨q, hq, hqo.trans ho⟩
  members := fun l => by
    rw [hrows.members_eq, hmembers, without, (h.holds.nodup l).erase_eq_filter]
    refine List.filter_congr fun x hx => ?_
    have halive : (s'.node? x).isSome := (hr.contains x).trans (h.holds.alive l x hx).1
    rw [contains, node?_eraseNode]
    by_cases hid : x = id <;> simp [hid, halive]
  counted := (Arena.nextKey_erase _ _).trans hr.nodes_nextKey
  made := hr.siblings_nextKey

theorem loses_eraseNode {s' : Links α} (hr : s.Relinked s') (id : NodeId) :
    s.Loses (s'.eraseNode id) (· = id) := by
  intro x hx hx'
  refine .top (Classical.byContradiction fun hne => ?_)
  rw [contains, node?_eraseNode, if_neg hne] at hx'
  exact Bool.eq_false_iff.mp hx' ((hr.contains x).trans hx)

theorem Ordered.shrinks_eraseList (h : s.Ordered orphans) {l : ListId} (hempty : s.members l = [])
    (hl : ∀ r, s.list? l = some r → r.owner ≠ none) : s.Shrinks (s.eraseList l) where
  node := fun hn => ⟨_, hn, rfl, rfl⟩
  list := fun hr => by
    rw [list?_eraseList] at hr
    split at hr
    · cases hr
    · exact ⟨_, hr, rfl⟩
  free := fun {k r} hr ho => by
    have hne : k ≠ l := by
      rintro rfl
      exact hl r hr ho
    exact ⟨r, by rw [list?_eraseList, if_neg hne, hr], ho⟩
  members := fun k => by
    rw [(h.holds.eraseList hempty).members_eq]
    exact h.shrinks_refl.members k
  counted := rfl
  made := Arena.nextKey_erase _ _

theorem loses_eraseList (s : Links α) (l : ListId) (P : NodeId → Prop) :
    s.Loses (s.eraseList l) P :=
  fun _ hx hx' => absurd hx (Bool.eq_false_iff.mp hx')

/-- With this fuel a node is destroyed with everything below it, in a store of at most `bound`
nodes. Orphans stay, and no other list becomes one. -/
def Destroys (α : Type) (fuel bound : Nat) : Prop :=
  ∀ (s : Links α) (orphans : List ListId) (id : NodeId), s.Ordered orphans → s.size ≤ bound →
    ∃ s', s.destroyTo fuel id = .ok s' ∧ s'.Ordered orphans ∧ s.Shrinks s' ∧ s.Loses s' (· = id) ∧
      s'.contains id = false ∧ s'.size + (if s.contains id then 1 else 0) ≤ s.size

/-- With this fuel a list is emptied, in a store of at most `bound` nodes. -/
def Empties (α : Type) (fuel bound : Nat) : Prop :=
  ∀ (s : Links α) (orphans : List ListId) (l : ListId), s.Ordered orphans → s.size ≤ bound →
    ∃ s', s.emptyTo fuel l = .ok s' ∧ s'.Ordered orphans ∧ s.Shrinks s' ∧
      s.Loses s' (· ∈ s.members l) ∧ s'.size ≤ s.size ∧ s'.head? l = none

/-- Orphans are emptied and erased one after the other. All that is lost are their members and what
is below these. -/
theorem Empties.eraseEach {fuel bound : Nat} (hempty : Empties α fuel bound)
    (ls : List ListId) (h : s.Ordered (ls ++ orphans)) (hs : s.size ≤ bound) {id : NodeId}
    (howner : ∀ l ∈ ls, ∀ r, s.list? l = some r → r.owner = some id) :
    ∃ s', ls.foldlM (fun s l => do return (← emptyTo fuel s l).eraseList l) s = .ok s' ∧
      s'.Ordered orphans ∧ s.Shrinks s' ∧ s.Loses s' (· = id) ∧ s'.size ≤ s.size := by
  induction ls generalizing s with
  | nil =>
    have hkept : s.Loses s (· = id) := fun _ hx hx' => absurd hx (Bool.eq_false_iff.mp hx')
    exact ⟨s, rfl, h, h.shrinks_refl, hkept, Nat.le_refl _⟩
  | cons l ls ih =>
    obtain ⟨s₁, hs₁, h₁, hshrinks₁, hloses₁, hsize₁, hhead⟩ := hempty s _ l h hs
    have howner₁ : ∀ r, s₁.list? l = some r → r.owner ≠ none := fun r hr => by
      obtain ⟨q, hq, ho⟩ := hshrinks₁.list hr
      rw [← ho, howner l List.mem_cons_self q hq]
      exact Option.some_ne_none id
    have hempty₁ := h₁.members_of_head? hhead
    have herase := h₁.shrinks_eraseList hempty₁ howner₁
    have hshrinks₂ := hshrinks₁.trans herase
    -- the members of the list are below its owner
    have hmember : ∀ x ∈ s.members l, s.Under (· = id) x := fun x hx => by
      obtain ⟨r, hr⟩ := Option.isSome_iff_exists.mp (h.holds.alive l x hx).2
      exact .member hx hr (howner l List.mem_cons_self r hr) (.top rfl)
    have hloses₂ : s.Loses (s₁.eraseList l) (· = id) :=
      (hloses₁.mono hmember).trans hshrinks₁ (loses_eraseList s₁ l _)
    have h₂ : (s₁.eraseList l).Ordered (ls ++ orphans) :=
      (h₁.holds.eraseList hempty₁).ordered h₁.owned.eraseList
    have howner₂ : ∀ k ∈ ls, ∀ r, (s₁.eraseList l).list? k = some r → r.owner = some id :=
      fun k hk r hr => by
        obtain ⟨q, hq, ho⟩ := hshrinks₂.list hr
        exact ho ▸ howner k (List.mem_cons_of_mem _ hk) q hq
    obtain ⟨s₃, hs₃, h₃, hshrinks₃, hloses₃, hsize₃⟩ :=
      ih h₂ (by simp; omega) howner₂
    refine ⟨s₃, ?_, h₃, hshrinks₂.trans hshrinks₃, hloses₂.trans hshrinks₂ hloses₃,
      by simp at hsize₃; omega⟩
    simp only [List.foldlM_cons, hs₁, bind, Except.bind, pure, Except.pure]
    exact hs₃

/-- A node is destroyed by emptying its lists, in a store that has lost it already. -/
theorem destroys_succ {fuel bound : Nat} (hempties : ∀ b, b < bound → Empties α fuel b) :
    Destroys α (fuel + 1) bound := by
  intro s orphans id h hbound
  cases hnode : s.node? id with
  | none =>
    have hdead : s.contains id = false := by rw [contains, hnode]; rfl
    have hkept : s.Loses s (· = id) := fun _ hx hx' => absurd hx (Bool.eq_false_iff.mp hx')
    refine ⟨s, ?_, h, h.shrinks_refl, hkept, hdead, by simp [hdead]⟩
    simp only [destroyTo, splice, hnode, bind, Except.bind, pure, Except.pure]
  | some m =>
    obtain ⟨b, s₁, hs₁, h₁, hr₁, hmembers₁⟩ := h.splice id
    have hout : ∀ l, id ∉ s₁.members l := fun l => hmembers₁ ▸ h.holds.not_mem_without id l
    have halive : s.contains id := by rw [contains, hnode]; rfl
    have halive₁ : s₁.contains id := (hr₁.contains id).trans halive
    obtain ⟨n, hn⟩ := Option.isSome_iff_exists.mp halive₁
    have hsize := size_eraseNode halive₁
    rw [hr₁.size] at hsize
    have hrows := h₁.holds.eraseNode hout
    have h₂ : (s₁.eraseNode id).Ordered (n.lists ++ orphans) :=
      hrows.ordered (h₁.owned.eraseNode hn)
    have hgone : (s₁.eraseNode id).contains id = false := by
      rw [contains, node?_eraseNode, if_pos rfl]
      rfl
    have howner : ∀ l ∈ n.lists, ∀ r, (s₁.eraseNode id).list? l = some r → r.owner = some id :=
      fun l hl r hr => by
        obtain ⟨-, q, hq, ho⟩ := h₁.owned.owned hn hl
        obtain rfl := Option.some.inj (hq.symm.trans hr)
        exact ho
    have hempty := hempties (s₁.eraseNode id).size (by omega)
    obtain ⟨s₃, hs₃, h₃, hshrinks₃, hloses₃, hsize₃⟩ :=
      hempty.eraseEach n.lists h₂ (Nat.le_refl _) howner
    have hshrinks₂ := h.shrinks_eraseNode hr₁ hmembers₁ hrows
    have hloses := (loses_eraseNode hr₁ id).trans hshrinks₂ hloses₃
    refine ⟨s₃, ?_, h₃, hshrinks₂.trans hshrinks₃, hloses, hshrinks₃.gone hgone,
      by simp [halive]; omega⟩
    simp only [destroyTo, hs₁, hn, bind, Except.bind]
    exact hs₃

/-- A list is emptied by destroying its head, as long as it has one. -/
theorem empties_succ {fuel bound : Nat} (hdestroys : 0 < bound → Destroys α fuel bound)
    (hempties : ∀ b, b < bound → Empties α fuel b) : Empties α (fuel + 1) bound := by
  intro s orphans l h hbound
  simp only [emptyTo]
  cases hhead : s.head? l with
  | none =>
    have hkept : s.Loses s (· ∈ s.members l) := fun _ hx hx' =>
      absurd hx (Bool.eq_false_iff.mp hx')
    exact ⟨s, rfl, h, h.shrinks_refl, hkept, Nat.le_refl _, hhead⟩
  | some x =>
    have halive := h.contains_head? hhead
    have hpos := size_eraseNode halive
    obtain ⟨s₁, hs₁, h₁, hshrinks₁, hloses₁, -, hsize₁⟩ :=
      hdestroys (by omega) s orphans x h hbound
    rw [if_pos halive] at hsize₁
    obtain ⟨s₂, hs₂, h₂, hshrinks₂, hloses₂, hsize₂, hnone⟩ :=
      hempties s₁.size (by omega) s₁ orphans l h₁ (Nat.le_refl _)
    have hmember : ∀ y, y = x → s.Under (· ∈ s.members l) y := by
      rintro y rfl
      exact .top (h.mem_head? hhead)
    have hloses := (hloses₁.mono hmember).trans hshrinks₁
      (hloses₂.mono fun y hy => .top (hshrinks₁.mem hy))
    refine ⟨s₂, ?_, h₂, hshrinks₁.trans hshrinks₂, hloses, by omega, hnone⟩
    simp only [hs₁, bind, Except.bind, hs₂]

/-- **Destroying ends and leaves no orphans behind.** Every node costs one step to destroy it and
one to go on with the list it was in. -/
theorem destroys_and_empties (fuel : Nat) :
    (∀ bound, 1 ≤ fuel → 2 * bound ≤ fuel → Destroys α fuel bound) ∧
      ∀ bound, 2 * bound + 1 ≤ fuel → Empties α fuel bound := by
  induction fuel with
  | zero => exact ⟨fun _ h => absurd h (by omega), fun _ h => absurd h (by omega)⟩
  | succ fuel ih =>
    obtain ⟨ihdestroys, ihempties⟩ := ih
    constructor
    · intro bound _ hfuel
      exact destroys_succ fun b hb => ihempties b (by omega)
    · intro bound hfuel
      exact empties_succ (fun _ => ihdestroys bound (by omega) (by omega))
        fun b hb => ihempties b (by omega)

/-- A node destroyed, with what is below it. -/
theorem Sound.destroy (h : s.Sound) (id : NodeId) :
    ∃ s', s.destroyTo (2 * s.size + 1) id = .ok s' ∧ s'.Sound ∧ s.Shrinks s' ∧
      s.Loses s' (· = id) ∧ s'.contains id = false := by
  have hdestroys : Destroys α (2 * s.size + 1) s.size :=
    (destroys_and_empties _).1 s.size (by omega) (by omega)
  obtain ⟨s', hs', h', hshrinks, hloses, hgone, -⟩ := hdestroys s [] id h (Nat.le_refl _)
  exact ⟨s', hs', h', hshrinks, hloses, hgone⟩

/-- A node removed, if it is not locked. -/
theorem Sound.remove [Lockable α] (h : s.Sound) (id : NodeId) :
    ∃ s', s.remove id = .ok (if s.isLocked id then none else s.get? id, s') ∧ s'.Sound ∧
      s.Shrinks s' ∧ (s.isLocked id = false → s.Loses s' (· = id) ∧ s'.contains id = false) := by
  unfold Links.remove
  cases hlocked : s.isLocked id with
  | true => exact ⟨s, rfl, h, h.shrinks_refl, nofun⟩
  | false =>
    obtain ⟨s', hs', h', hshrinks, hlost⟩ := h.destroy id
    exact ⟨s', by simp [hs', bind, Except.bind, pure, Except.pure], h', hshrinks, fun _ => hlost⟩

theorem Sound.settles_remove [Lockable α] (h : s.Sound) (id : NodeId) : Settles (s.remove id) := by
  obtain ⟨s', hs', h', -⟩ := h.remove id
  exact ⟨_, s', hs', h'⟩

theorem Sound.destroyList (h : s.Sound) (l : ListId) :
    ∃ s', s.destroyList l = .ok s' ∧ s'.Sound ∧ s.Shrinks s' ∧ s.Loses s' (· ∈ s.members l) ∧
      s'.head? l = none := by
  have hempties : Empties α (2 * s.size + 1) s.size :=
    (destroys_and_empties _).2 s.size (Nat.le_refl _)
  obtain ⟨s', hs', h', hshrinks, hloses, -, hhead⟩ := hempties s [] l h (Nat.le_refl _)
  exact ⟨s', hs', h', hshrinks, hloses, hhead⟩

theorem Sound.settles_destroyList (h : s.Sound) (l : ListId) :
    Settles ((s.destroyList l).map ((), ·)) := by
  obtain ⟨s', hs', h', -⟩ := h.destroyList l
  exact ⟨(), s', by rw [hs']; rfl, h'⟩

end Destroying

end Links

end Toolpath
