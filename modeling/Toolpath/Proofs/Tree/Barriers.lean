import Toolpath.Proofs.Tree.Removal

/-!
# Barriers

A locked node is neither removed nor exchanged with a neighbour. So while nodes are only removed,
exchanged and made, it stays in its list as long as the list is there, and nobody gets past it. Each
step looks at two neighbours only; what follows for a whole list is a matter of the whole run.

What carries over from step to step is said of members that are *watched*. No two of them are
unlocked, so no two of them are ever exchanged, and they stay in the order that they are in. To
watch all locked members is to see that they keep their order, and to watch one of them beside an
unlocked one is to see that neither passes the other.

A node that is in no list, such as one just made, may be put anywhere: it was on no side before. To
take it from another list would be different, since it may be locked there.

## Main definitions

* `Links.Orderly` — calls that remove, exchange and make nodes, and put into lists what was in none
* `Links.Watches`, `Links.Guards` — members that are watched stay in their order
* `Tree.Barred` — nobody got past a locked member of a list

## Main results

* `Links.Sound.guards_perform`, `Sound.guards_run` — one call, and calls one after the other
* `Tree.run_barred` — no orderly run gets anybody past a locked node
-/

namespace Toolpath

namespace Links

variable {α : Type} {s s' s'' : Links α} {l : ListId} {x : NodeId}

/-! ### Names are not used again -/

theorem Newer.contains_between (h : s.Newer s') (h' : s'.Newer s'') (hx : s.contains x)
    (hx'' : s''.contains x) : s'.contains x :=
  (h'.made x hx'').resolve_right fun hkey =>
    Nat.not_le_of_lt (key_lt_of_contains hx) (h.next.trans hkey)

theorem Later.list?_between (h : s.Later s') (h' : s'.Later s'') (hl : (s.list? l).isSome)
    (hl'' : (s''.list? l).isSome) : (s'.list? l).isSome := by
  obtain ⟨r, hr⟩ := Option.isSome_iff_exists.mp hl
  exact (h'.made l hl'').resolve_right fun hkey =>
    Nat.not_le_of_lt (Arena.lt_nextKey_of_get? hr) (h.next.trans hkey)

theorem Shrinks.later (h : s.Shrinks s') : s.Later s' where
  next := h.made.ge
  made := fun l hl => by
    obtain ⟨r, hr⟩ := Option.isSome_iff_exists.mp hl
    obtain ⟨q, hq, -⟩ := h.list hr
    exact .inl (Option.isSome_iff_exists.mpr ⟨q, hq⟩)

theorem exists_of_map_snd {β : Type} {r : Except Fault (β × Links α)}
    (h : r.map Prod.snd = .ok s') : ∃ b, r = .ok (b, s') := by
  cases r with
  | error e => cases h
  | ok p => exact ⟨p.1, congrArg Except.ok (Prod.ext rfl (Except.ok.inj h))⟩

variable [Lockable α]

theorem isLocked_of_get? (h : s'.get? x = s.get? x) : s'.isLocked x = s.isLocked x := by
  rw [isLocked, isLocked, h]

/-! ### Members that are watched -/

section Guards

variable {p : NodeId → Bool}

/-- Members of a list that are left later on, no two of them unlocked. -/
structure Watches (s s' : Links α) (l : ListId) (p : NodeId → Bool) : Prop where
  /-- What is watched is a member. -/
  mem : ∀ x, p x → x ∈ s.members l
  /-- It is left. -/
  left : ∀ x, p x → s'.contains x
  /-- One of them is unlocked at most. -/
  unique : ∀ x y, p x → p y → s.isLocked x = false → s.isLocked y = false → x = y

/-- From one store to the other nobody gets past a locked node. -/
structure Guards (s s' : Links α) : Prop where
  /-- No node comes back. -/
  newer : s.Newer s'
  /-- No list comes back. -/
  later : s.Later s'
  /-- Locks stay as they are. -/
  locked : ∀ x, s.contains x → s'.contains x → s'.isLocked x = s.isLocked x
  /-- A locked member is left as long as its list. -/
  left : ∀ l, (s'.list? l).isSome → ∀ x ∈ s.members l, s.isLocked x → s'.contains x
  /-- Members that are watched are in the order that they were in. -/
  order : ∀ l, (s'.list? l).isSome → ∀ p, s.Watches s' l p →
    (s'.members l).filter p = (s.members l).filter p

theorem Sound.guards_refl (h : s.Sound) : s.Guards s where
  newer := .refl s
  later := .refl s
  locked := fun _ _ _ => rfl
  left := fun l _ x hx _ => (h.holds.alive l x hx).1
  order := fun _ _ _ _ => rfl

theorem Watches.mem_filter (h : s.Watches s' l p)
    (horder : (s'.members l).filter p = (s.members l).filter p) (hx : p x) : x ∈ s'.members l := by
  have hmem : x ∈ (s.members l).filter p := List.mem_filter.mpr ⟨h.mem x hx, hx⟩
  rw [← horder] at hmem
  exact (List.mem_filter.mp hmem).1

/-- **Locked members stay in their order**, and beside them one more that is left. -/
theorem Guards.sublist (h : s.Guards s') (hl : (s'.list? l).isSome) {xs : List NodeId}
    (hxs : xs.Sublist (s.members l)) (hleft : ∀ x ∈ xs, s.isLocked x = false → s'.contains x)
    (hunique : ∀ x ∈ xs, ∀ y ∈ xs, s.isLocked x = false → s.isLocked y = false → x = y) :
    xs.Sublist (s'.members l) := by
  have hwatch : s.Watches s' l fun x => decide (x ∈ xs) := by
    refine ⟨fun x hx => hxs.subset (of_decide_eq_true hx), fun x hx => ?_,
      fun x y hx hy => hunique x (of_decide_eq_true hx) y (of_decide_eq_true hy)⟩
    have hmem := of_decide_eq_true hx
    cases hlocked : s.isLocked x with
    | true => exact h.left l hl x (hxs.subset hmem) hlocked
    | false => exact hleft x hmem hlocked
  have hself : xs.filter (fun x => decide (x ∈ xs)) = xs :=
    List.filter_eq_self.mpr fun x hx => decide_eq_true hx
  rw [← hself]
  refine (hxs.filter _).trans ?_
  rw [← h.order l hl _ hwatch]
  exact List.filter_sublist

theorem Guards.mem_of_locked (h : s.Guards s') (hl : (s'.list? l).isSome) (hx : x ∈ s.members l)
    (hlocked : s.isLocked x) : x ∈ s'.members l := by
  have hrow : [x].Sublist (s'.members l) :=
    h.sublist hl (List.singleton_sublist.mpr hx) (by simp [hlocked]) (by simp)
  exact List.singleton_sublist.mp hrow

/-- Watching goes on: in between everything is as it is required in the end. -/
theorem Watches.split (hs : s.Sound) (h : s.Guards s') (h' : s'.Guards s'')
    (hl : (s'.list? l).isSome) (hp : s.Watches s'' l p) :
    s.Watches s' l p ∧ s'.Watches s'' l p := by
  have halive (x) (hx : p x) : s.contains x := (hs.holds.alive l x (hp.mem x hx)).1
  have hbetween (x) (hx : p x) : s'.contains x :=
    h.newer.contains_between h'.newer (halive x hx) (hp.left x hx)
  have hfirst : s.Watches s' l p := ⟨hp.mem, hbetween, hp.unique⟩
  refine ⟨hfirst, fun x hx => hfirst.mem_filter (h.order l hl p hfirst) hx, hp.left, ?_⟩
  intro x y hx hy hfree hfree'
  rw [h.locked x (halive x hx) (hbetween x hx)] at hfree
  rw [h.locked y (halive y hy) (hbetween y hy)] at hfree'
  exact hp.unique x y hx hy hfree hfree'

theorem Guards.trans (hs : s.Sound) (h : s.Guards s') (h' : s'.Guards s'') : s.Guards s'' where
  newer := h.newer.trans h'.newer
  later := h.later.trans h'.later
  locked := fun x hx hx'' => by
    have hx' := h.newer.contains_between h'.newer hx hx''
    exact (h'.locked x hx' hx'').trans (h.locked x hx hx')
  left := fun l hl x hx hlocked => by
    obtain ⟨halive, hl₀⟩ := hs.holds.alive l x hx
    have hl' := h.later.list?_between h'.later hl₀ hl
    have hmem := h.mem_of_locked hl' hx hlocked
    have hx' := h.left l hl' x hx hlocked
    exact h'.left l hl x hmem ((h.locked x halive hx').trans hlocked)
  order := fun l hl p hp => by
    cases hl₀ : s.list? l with
    | none =>
      -- no member can be watched in a list that was not there
      have hnone (x) : p x = false := Bool.eq_false_iff.mpr fun hx => by
        have halive := (hs.holds.alive l x (hp.mem x hx)).2
        rw [hl₀] at halive
        cases halive
      rw [List.filter_eq_nil_iff.mpr fun x _ => by simp [hnone],
        List.filter_eq_nil_iff.mpr fun x _ => by simp [hnone]]
    | some r =>
      have hl' := h.later.list?_between h'.later (by rw [hl₀]; rfl) hl
      obtain ⟨hfirst, hsecond⟩ := hp.split hs h h' hl'
      exact (h'.order l hl p hsecond).trans (h.order l hl' p hfirst)

end Guards

/-! ### One call -/

section Calls

variable {id a b : NodeId} {rows : ListId → List NodeId}

/-- Nodes and lists that are made, and items that are edited, are no matter of rows. -/
theorem Sound.guards_of_members (h : s.Sound) (hnewer : s.Newer s') (hlater : s.Later s')
    (halive : ∀ x, s.contains x → s'.contains x ∧ s'.isLocked x = s.isLocked x)
    (hmembers : s'.members = s.members) : s.Guards s' where
  newer := hnewer
  later := hlater
  locked := fun x hx _ => (halive x hx).2
  left := fun l _ x hx _ => (halive x (h.holds.alive l x hx).1).1
  order := fun l _ p _ => by rw [hmembers]

theorem Sound.guards_create (h : s.Sound) (item : α) : s.Guards (s.create item).2 := by
  refine h.guards_of_members (newer_create s item) ⟨Nat.le_refl _, fun _ => .inl⟩ (fun x hx => ?_)
    (h.members_create item)
  have hgrown := h.extends_create item
  refine ⟨hgrown.contains hx, isLocked_of_get? ?_⟩
  obtain ⟨n, hn⟩ := Option.isSome_iff_exists.mp hx
  rw [get?, get?, hgrown.node hn, hn]

theorem Sound.guards_newList (h : s.Sound) (owner : Option NodeId) :
    s.Guards (s.newList owner).2 := by
  refine h.guards_of_members (newer_newList s owner) (later_newList s owner) (fun x hx => ?_)
    (h.members_newList owner)
  obtain ⟨n, hn⟩ := Option.isSome_iff_exists.mp hx
  refine ⟨by rw [contains, node?_newList, Option.isSome_map]; exact hx, isLocked_of_get? ?_⟩
  rw [get?, get?, node?_newList, hn, Option.map_some, Option.map_some, Option.map_some]
  split <;> rfl

theorem Sound.guards_modify (h : s.Sound) (id : NodeId) {f : α → α}
    (hf : ∀ a, s.get? id = some a → Lockable.locked (f a) = Lockable.locked a) :
    s.Guards (s.modify id f) := by
  refine h.guards_of_members (newer_modify s id f) ⟨Nat.le_refl _, fun _ => .inl⟩ (fun x hx => ?_)
    (h.holds.modify id f).members_eq
  obtain ⟨n, hn⟩ := Option.isSome_iff_exists.mp hx
  refine ⟨by rw [contains, node?_modify, Option.isSome_map]; exact hx, ?_⟩
  rw [isLocked, isLocked, get?, get?, node?_modify, hn]
  by_cases hid : x = id
  · subst hid
    simpa using hf n.item (congrArg (Option.map TreeNode.item) hn)
  · simp [hid]

theorem Rearranged.guards (h : s.Sound) (hr : s.Rearranged s' rows)
    (hrows : ∀ l p, s.Watches s' l p → (rows l).filter p = (s.members l).filter p) :
    s.Guards s' where
  newer := hr.relinked.newer
  later := hr.relinked.later
  locked := fun x _ _ => isLocked_of_get? (hr.relinked.get? x)
  left := fun l _ x hx _ => (hr.relinked.contains x).trans (h.holds.alive l x hx).1
  order := fun l _ p hp => by rw [hr.members, hrows l p hp]

/-- A node that was in no list is watched in none. -/
theorem Rearranged.guards_of_loose (h : s.Sound) (hid : s.listOf? id = none) {xs : List NodeId}
    (hr : s.Rearranged s' (put (without s.members id) l xs))
    (hxs : ∀ p : NodeId → Bool, p id = false → xs.filter p = (s.members l).filter p) :
    s.Guards s' := by
  have hout := h.holds.not_mem_of_listOf? hid
  rw [without_eq_self hout] at hr
  refine hr.guards h fun k p hp => ?_
  by_cases hk : k = l
  · subst hk
    rw [put_self]
    exact hxs p (Bool.eq_false_iff.mpr fun hwatched => hout k (hp.mem id hwatched))
  · rw [put_of_ne hk]

theorem Sound.guards_of_refused {β : Type} {op : Except Fault (β × Links α)} (h : s.Sound)
    {r r' : β} (hno : op = .ok (r, s)) (hs : op = .ok (r', s')) : s.Guards s' := by
  obtain ⟨-, rfl⟩ := Prod.mk.inj (Except.ok.inj (hno.symm.trans hs))
  exact h.guards_refl

theorem Sound.guards_insert (h : s.Sound) (hid : s.listOf? id = none) {r : Bool}
    (hs : s.insert l id = .ok (r, s')) : s.Guards s' := by
  by_cases hgo : s.contains id = false ∨ s.list? l = none
  · exact h.guards_of_refused (insert_of_refused hgo) hs
  · obtain ⟨halive, hl⟩ := not_or.mp hgo
    obtain ⟨u, hu, hr⟩ := h.insert (by simpa using halive) (Option.isSome_iff_ne_none.mpr hl)
    obtain ⟨-, rfl⟩ := Prod.mk.inj (Except.ok.inj (hu.symm.trans hs))
    exact hr.guards_of_loose h hid fun p hp => Row.filter_behindHead hp _

theorem Sound.guards_pushBack (h : s.Sound) (hid : s.listOf? id = none) {r : Bool}
    (hs : s.pushBack l id = .ok (r, s')) : s.Guards s' := by
  by_cases hgo : s.contains id = false ∨ s.list? l = none
  · exact h.guards_of_refused (pushBack_of_refused hgo) hs
  · obtain ⟨halive, hl⟩ := not_or.mp hgo
    obtain ⟨u, hu, hr⟩ := h.pushBack (by simpa using halive) (Option.isSome_iff_ne_none.mpr hl)
    obtain ⟨-, rfl⟩ := Prod.mk.inj (Except.ok.inj (hu.symm.trans hs))
    exact hr.guards_of_loose h hid fun p hp => Row.filter_atTail hp _

theorem Sound.guards_insertAfter (h : s.Sound) (hid : s.listOf? id = none) {anchor : NodeId}
    {r : Bool} (hs : s.insertAfter anchor id = .ok (r, s')) : s.Guards s' := by
  by_cases hgo : anchor = id ∨ s.contains id = false ∨ s.listOf? anchor = none
  · exact h.guards_of_refused (insertAfter_of_refused hgo) hs
  · obtain ⟨hne, halive, ha⟩ := by simpa only [not_or] using hgo
    obtain ⟨l, hl⟩ := Option.ne_none_iff_exists'.mp ha
    obtain ⟨u, hu, hr⟩ := h.insertAfter hne (by simpa using halive) hl
    obtain ⟨-, rfl⟩ := Prod.mk.inj (Except.ok.inj (hu.symm.trans hs))
    exact hr.guards_of_loose h hid fun p hp => by
      rw [Row.filter_insertBehind hp, Row.filter_erase hp]

/-- Two neighbours that are exchanged are both unlocked, so one of them is watched at most. -/
theorem Sound.guards_swap (h : s.Sound) (hab : Row.after a (s.members l) = some b) {r : Bool}
    (hs : s.swap a b = .ok (r, s')) : s.Guards s' := by
  cases hfree : s.isLocked a || s.isLocked b with
  | true => exact h.guards_of_refused (swap_of_locked hfree) hs
  | false =>
    obtain ⟨ha, hb⟩ := Bool.or_eq_false_iff.mp hfree
    have hne : b ≠ a := fun he => Row.after_ne_self (h.holds.nodup l) (he ▸ hab)
    obtain ⟨u, hu, hr⟩ := h.swap hab hfree
    obtain ⟨-, rfl⟩ := Prod.mk.inj (Except.ok.inj (hu.symm.trans hs))
    refine hr.guards h fun k p hp => ?_
    by_cases hk : k = l
    · subst hk
      rw [put_self]
      refine Row.filter_exchange ?_ _
      by_contra hboth
      obtain ⟨hpa, hpb⟩ := not_or.mp hboth
      exact hne (hp.unique b a (by simpa using hpb) (by simpa using hpa) hb ha)
    · rw [put_of_ne hk]

theorem Sound.guards_moveTowardHead (h : s.Sound) {r : Bool}
    (hs : s.moveTowardHead id = .ok (r, s')) : s.Guards s' := by
  cases hp : s.prev? id with
  | none => exact h.guards_of_refused (by rw [moveTowardHead, hp]) hs
  | some p =>
    obtain ⟨l, hl⟩ := h.holds.prev?_eq_some_iff.mp hp
    rw [moveTowardHead, hp] at hs
    exact h.guards_swap hl hs

theorem Sound.guards_moveTowardTail (h : s.Sound) {r : Bool}
    (hs : s.moveTowardTail id = .ok (r, s')) : s.Guards s' := by
  cases hn : s.next? id with
  | none => exact h.guards_of_refused (by rw [moveTowardTail, hn]) hs
  | some n =>
    obtain ⟨l, hl⟩ := h.holds.next?_eq_some_iff.mp hn
    rw [moveTowardTail, hn] at hs
    exact h.guards_swap hl hs

/-- What is removed is not locked, and the lists below it are gone. -/
theorem guards_of_remove {t u : Tree α} {n : α} (hu : t.remove? id = some (n, u))
    (hfree : t.isLocked id = false) : t.links.Guards u.links := by
  obtain ⟨hshrinks, -, hgone⟩ := Tree.shrinks_of_remove hu
  have hfelled := Tree.felled_of_remove hu
  refine ⟨hshrinks.newer, hshrinks.later, fun x _ hx => isLocked_of_get? (hfelled.item x hx),
    fun l hl x hx hlocked => ?_, fun l hl p hp => ?_⟩
  · have hne : x ≠ id := by
      rintro rfl
      cases hfree.symm.trans hlocked
    have hmem : x ∈ u.members l :=
      hfelled.row hl ▸ List.mem_filter.mpr ⟨hx, bne_iff_ne.mpr hne⟩
    exact (u.sound.holds.alive l x hmem).1
  · have hid : p id = false := Bool.eq_false_iff.mpr fun hwatched =>
      Bool.eq_false_iff.mp hgone (hp.left id hwatched)
    refine (congrArg (List.filter p) (hfelled.row hl)).trans ?_
    rw [List.filter_filter]
    refine List.filter_congr fun x _ => ?_
    by_cases hx : x = id
    · simp [hx, hid]
    · simp [hx]

theorem Sound.guards_remove (h : s.Sound) {r : Option α} (hs : s.remove id = .ok (r, s')) :
    s.Guards s' := by
  let t : Tree α := ⟨s, h⟩
  by_cases hgo : t.contains id = false ∨ t.isLocked id = true
  · exact h.guards_of_refused (Tree.remove_of_refused hgo) hs
  · obtain ⟨halive, hfree⟩ := not_or.mp hgo
    have hfree : t.isLocked id = false := Bool.eq_false_iff.mpr hfree
    obtain ⟨a, u, -, hu⟩ := Tree.exists_remove_of_contains (by simpa using halive) hfree
    obtain ⟨-, rfl⟩ :=
      Prod.mk.inj (Except.ok.inj ((Tree.remove_eq_of_remove? hu).symm.trans hs))
    exact guards_of_remove hu hfree

end Calls

/-! ### Runs -/

/-- The call removes, exchanges or makes something, edits an item without its lock, or puts a node
that is in no list into one. -/
def OrderlyCall (s : Links α) : Call α → Prop
  | .newList _ | .create _ | .remove _ | .moveTowardHead _ | .moveTowardTail _ => True
  | .insert _ id | .pushBack _ id | .insertAfter _ id => s.listOf? id = none
  | .modify id f => ∀ a, s.get? id = some a → Lockable.locked (f a) = Lockable.locked a
  | .splice _ | .destroyList _ | .duplicateWith _ _ => False

/-- Every call is orderly in the store that the calls before it made. -/
def Orderly (s : Links α) : List (Call α) → Prop
  | [] => True
  | c :: cs => s.OrderlyCall c ∧ ∀ s', s.perform c = .ok s' → Orderly s' cs

theorem OrderlyCall.careful {c : Call α} (h : s.OrderlyCall c) : s.CarefulCall c := by
  cases c with
  | duplicateWith id f => exact h.elim
  | _ => trivial

/-- **An orderly call gets nobody past a locked node.** -/
theorem Sound.guards_perform (h : s.Sound) {c : Call α} (hc : s.OrderlyCall c)
    (hs : s.perform c = .ok s') : s.Guards s' := by
  cases c with
  | newList owner => exact Except.ok.inj hs ▸ h.guards_newList owner
  | create item => exact Except.ok.inj hs ▸ h.guards_create item
  | insert l id =>
    obtain ⟨r, hr⟩ := exists_of_map_snd hs
    exact h.guards_insert hc hr
  | pushBack l id =>
    obtain ⟨r, hr⟩ := exists_of_map_snd hs
    exact h.guards_pushBack hc hr
  | insertAfter anchor id =>
    obtain ⟨r, hr⟩ := exists_of_map_snd hs
    exact h.guards_insertAfter hc hr
  | splice id => exact hc.elim
  | moveTowardHead id =>
    obtain ⟨r, hr⟩ := exists_of_map_snd hs
    exact h.guards_moveTowardHead hr
  | moveTowardTail id =>
    obtain ⟨r, hr⟩ := exists_of_map_snd hs
    exact h.guards_moveTowardTail hr
  | remove id =>
    obtain ⟨r, hr⟩ := exists_of_map_snd hs
    exact h.guards_remove hr
  | destroyList l => exact hc.elim
  | duplicateWith id f => exact hc.elim
  | modify id f => exact Except.ok.inj hs ▸ h.guards_modify id hc

theorem Sound.guards_run (h : s.Sound) {cs : List (Call α)} (hcs : s.Orderly cs) :
    ∃ s', s.run cs = .ok s' ∧ s'.Sound ∧ s.Guards s' := by
  induction cs generalizing s with
  | nil => exact ⟨s, rfl, h, h.guards_refl⟩
  | cons c cs ih =>
    obtain ⟨hc, hrest⟩ := hcs
    obtain ⟨s₁, hs₁, h₁⟩ := h.perform hc.careful
    obtain ⟨s₂, hs₂, h₂, hguards⟩ := ih h₁ (hrest s₁ hs₁)
    exact ⟨s₂, by rw [Links.run, hs₁]; exact hs₂, h₂, (h.guards_perform hc hs₁).trans h hguards⟩

end Links

namespace Tree

variable {α : Type} [Lockable α] {t u : Tree α}

/-- From one tree to the other nobody got past a locked member of a list. -/
structure Barred (t u : Tree α) (l : ListId) : Prop where
  /-- Every locked member is still a member, and still locked. -/
  stays : ∀ x ∈ t.members l, t.isLocked x → x ∈ u.members l ∧ u.isLocked x
  /-- The locked members are in the order that they were in. -/
  order : ((t.members l).filter t.isLocked).Sublist (u.members l)
  /-- Who is left and was behind a locked member is behind it. -/
  behind : ∀ x y, t.isLocked x → u.contains y → [x, y].Sublist (t.members l) →
    [x, y].Sublist (u.members l)
  /-- Who is left and was before a locked member is before it. -/
  before : ∀ x y, t.isLocked x → u.contains y → [y, x].Sublist (t.members l) →
    [y, x].Sublist (u.members l)

theorem barred_of_guards (h : t.links.Guards u.links) {l : ListId} (hl : (u.list? l).isSome) :
    t.Barred u l := by
  have hpair (x y : NodeId) (hx : t.isLocked x) (hy : u.contains y) {xs : List NodeId}
      (hxs : xs.Sublist (t.members l)) (hmem : ∀ z ∈ xs, z = x ∨ z = y) :
      xs.Sublist (u.members l) := by
    have hfree (z) (hz : z ∈ xs) (hfree : t.isLocked z = false) : z = y :=
      (hmem z hz).resolve_left fun he => Bool.eq_false_iff.mp hfree (he ▸ hx)
    refine h.sublist hl hxs (fun z hz hz' => hfree z hz hz' ▸ hy) (fun z hz w hw hz' hw' => ?_)
    rw [hfree z hz hz', hfree w hw hw']
  constructor
  case stays =>
    intro x hx hlocked
    have halive := (t.sound.holds.alive l x hx).1
    refine ⟨h.mem_of_locked hl hx hlocked, ?_⟩
    exact (h.locked x halive (h.left l hl x hx hlocked)).trans hlocked
  case order =>
    have hlocked (x) (hx : x ∈ (t.members l).filter t.isLocked) : t.isLocked x ≠ false :=
      Bool.ne_false_iff.mpr (List.mem_filter.mp hx).2
    exact h.sublist hl List.filter_sublist (fun x hx hfree => absurd hfree (hlocked x hx))
      fun x hx _ _ hfree _ => absurd hfree (hlocked x hx)
  case behind =>
    intro x y hx hy hrow
    exact hpair x y hx hy hrow (by simp)
  case before =>
    intro x y hx hy hrow
    exact hpair x y hx hy hrow (by simp [or_comm])

/-- **No orderly run gets anybody past a locked node.** -/
theorem run_barred (t : Tree α) {calls : List (Call α)} (h : t.links.Orderly calls) :
    ∃ u : Tree α, t.links.run calls = .ok u.links ∧
      ∀ l, (u.list? l).isSome → t.Barred u l := by
  obtain ⟨s, hs, hsound, hguards⟩ := t.sound.guards_run h
  exact ⟨⟨s, hsound⟩, hs, fun l hl => barred_of_guards hguards hl⟩

/-- Between two unlocked nodes stands a locked one. A new node is put behind it and exchanged with
the one there, which does not get any further; the locked node is not removed, the first one is. -/
theorem run_barred_between :
    let made : List (Call Bool) := [.newList none, .create false, .create true, .create false,
      .pushBack ⟨0⟩ ⟨0⟩, .pushBack ⟨0⟩ ⟨1⟩, .pushBack ⟨0⟩ ⟨2⟩]
    let calls : List (Call Bool) := [.create false, .insertAfter ⟨1⟩ ⟨3⟩, .moveTowardHead ⟨2⟩,
      .moveTowardHead ⟨2⟩, .remove ⟨1⟩, .remove ⟨0⟩]
    ∃ t u : Tree Bool, (Links.empty : Links Bool).run made = .ok t.links ∧
      t.members ⟨0⟩ = [⟨0⟩, ⟨1⟩, ⟨2⟩] ∧ t.isLocked ⟨1⟩ ∧
      t.links.Orderly calls ∧ t.links.run calls = .ok u.links ∧
      u.members ⟨0⟩ = [⟨1⟩, ⟨2⟩, ⟨3⟩] ∧ t.Barred u ⟨0⟩ := by
  intro made calls
  have hmade : (Links.empty : Links Bool).Careful made := Links.careful_of_no_copy (by decide)
  obtain ⟨s, hs, hsound⟩ := Links.sound_empty.run hmade
  have hlook {β : Type} (f : Links Bool → β) {b : β}
      (h : ((Links.empty : Links Bool).run made).map f = .ok b) : f s = b := by
    rw [hs] at h
    exact Except.ok.inj h
  have horderly : s.Orderly calls := by
    refine ⟨trivial, fun s' hs' => ⟨?_, fun _ _ => ⟨trivial, fun _ _ => ⟨trivial, fun _ _ =>
      ⟨trivial, fun _ _ => ⟨trivial, fun _ _ => trivial⟩⟩⟩⟩⟩⟩
    -- the node that is new is in no list
    have hloose : (s.perform (.create false)).map (·.listOf? ⟨3⟩) = .ok none :=
      hlook (fun s => (s.perform (.create false)).map (·.listOf? ⟨3⟩)) rfl
    rw [hs'] at hloose
    exact Except.ok.inj hloose
  obtain ⟨u, hu, hbarred⟩ := run_barred ⟨s, hsound⟩ horderly
  have hend : (s.run calls).map (fun u => (u.members ⟨0⟩, (u.list? ⟨0⟩).isSome)) =
      .ok ([⟨1⟩, ⟨2⟩, ⟨3⟩], true) :=
    hlook (fun s => (s.run calls).map fun u => (u.members ⟨0⟩, (u.list? ⟨0⟩).isSome)) rfl
  rw [show s.run calls = .ok u.links from hu] at hend
  obtain ⟨hrow, hlist⟩ := Prod.mk.inj (Except.ok.inj hend)
  exact ⟨⟨s, hsound⟩, u, hs, hlook (·.members ⟨0⟩) rfl, hlook (·.isLocked ⟨1⟩) rfl, horderly, hu,
    hrow, hbarred ⟨0⟩ hlist⟩

end Tree

end Toolpath
