import Toolpath.Tree.Relink

/-!
# Linked nodes in order

A store of linked nodes is in order if its links are those of some rows: `Links.Holds s rows` says
that the list `l` of the store `s` is the row `rows l`. The rows are all there is to say about the
links, so an operation on places is described by the rows before and after it, and a proof about an
operation never looks at a link again.

For each operation there are two statements: the conditions under which it refuses and leaves the
store as it is (`insertAfter_of_refused`, …), and the rows it makes otherwise (`insertAfter_spec`,
…). The second kind says at the same time that it does not fault: the links that it follows lead to
members of rows, and those are alive.

## Main definitions

* `Links.Holds` — the rows that a store holds
* `Links.put`, `Links.without` — rows with one row replaced, or one node taken out

## Main results

* `Links.splice_spec`, `insertAfter_spec`, `insert_spec`, `pushBack_spec`, `swap_spec`
* `Links.Holds.members_eq` — walking a list from its head meets its row
-/

namespace Toolpath

namespace Links

variable {α : Type}

/-- The links of a node are those of its place in the rows. -/
structure Fits (rows : ListId → List NodeId) (x : NodeId) (n : TreeNode α) : Prop where
  /-- It knows the one row it is in. -/
  list : ∀ l, n.list = some l ↔ x ∈ rows l
  /-- It knows the member before it. -/
  prev : ∀ l, x ∈ rows l → n.prev = Row.before x (rows l)
  /-- It knows the member behind it. -/
  next : ∀ l, x ∈ rows l → n.next = Row.after x (rows l)
  /-- In no row it has no links. -/
  loose : n.list = none → n.prev = none ∧ n.next = none

/-- The links of a list are those of the ends of a row. -/
structure Ends (row : List NodeId) (r : Siblings) : Prop where
  /-- It knows its first member. -/
  head : r.head = row.head?
  /-- It knows its last member. -/
  tail : r.tail = row.getLast?
  /-- It knows how many members it has. -/
  length : r.length = row.length

/-- **The lists of a store hold these rows.** All links are read off from the rows: this is the only
place where it is said what the links mean. -/
structure Holds (s : Links α) (rows : ListId → List NodeId) : Prop where
  /-- No node is twice in a row. -/
  nodup : ∀ l, (rows l).Nodup
  /-- Members, and lists with members, are alive. -/
  alive : ∀ l x, x ∈ rows l → s.contains x ∧ (s.list? l).isSome
  /-- Nodes have the links of their place. -/
  node : ∀ x n, s.node? x = some n → Fits rows x n
  /-- Lists have the links of their row. -/
  list : ∀ l r, s.list? l = some r → Ends (rows l) r

/-- Where a store is another one with its entries changed, it holds what the changed entries fit. -/
theorem Holds.of_map {s s' : Links α} {rows : ListId → List NodeId}
    {F : NodeId → TreeNode α → TreeNode α} {G : ListId → Siblings → Siblings}
    (hF : ∀ x, s'.node? x = (s.node? x).map (F x)) (hG : ∀ l, s'.list? l = (s.list? l).map (G l))
    (hnodup : ∀ l, (rows l).Nodup) (halive : ∀ l x, x ∈ rows l → s.contains x ∧ (s.list? l).isSome)
    (hfits : ∀ x n, s.node? x = some n → Fits rows x (F x n))
    (hends : ∀ l r, s.list? l = some r → Ends (rows l) (G l r)) : s'.Holds rows where
  nodup := hnodup
  alive := fun l x hx => by
    obtain ⟨hn, hl⟩ := halive l x hx
    exact ⟨by simpa [contains, hF] using hn, by simpa [hG] using hl⟩
  node := fun x n' hn' => by
    obtain ⟨n, hn, rfl⟩ := Option.map_eq_some_iff.mp ((hF x).symm.trans hn')
    exact hfits x n hn
  list := fun l r' hr' => by
    obtain ⟨r, hr, rfl⟩ := Option.map_eq_some_iff.mp ((hG l).symm.trans hr')
    exact hends l r hr

/-- Rows with the row of one list replaced. -/
def put (rows : ListId → List NodeId) (l : ListId) (xs : List NodeId) : ListId → List NodeId :=
  fun k => if k = l then xs else rows k

/-- Rows with a node taken out wherever it was. -/
def without (rows : ListId → List NodeId) (id : NodeId) : ListId → List NodeId :=
  fun k => (rows k).erase id

/-! ### The rows afterwards -/

theorem put_self (rows : ListId → List NodeId) (l : ListId) (xs : List NodeId) :
    put rows l xs l = xs := if_pos rfl

theorem put_of_ne {rows : ListId → List NodeId} {l k : ListId} (hk : k ≠ l) (xs : List NodeId) :
    put rows l xs k = rows k := if_neg hk

theorem mem_put {rows : ListId → List NodeId} {l k : ListId} {xs : List NodeId} {x : NodeId} :
    x ∈ put rows l xs k ↔ if k = l then x ∈ xs else x ∈ rows k := by
  unfold put; split <;> rfl

section Rows

variable {s s' : Links α} {rows : ListId → List NodeId}

theorem Fits.not_mem_of_ne {x : NodeId} {n : TreeNode α} {l k : ListId} (h : Fits rows x n)
    (hl : x ∈ rows l) (hk : k ≠ l) : x ∉ rows k := by
  intro hx
  rw [← h.list k, (h.list l).mpr hl] at hx
  exact hk (Option.some.inj hx).symm

theorem Holds.eq_of_mem (h : s.Holds rows) {l k : ListId} {x : NodeId} (hl : x ∈ rows l)
    (hk : x ∈ rows k) : l = k := by
  obtain ⟨n, hn⟩ := Option.isSome_iff_exists.mp (h.alive l x hl).1
  have hfits := h.node x n hn
  exact Option.some.inj (((hfits.list l).mpr hl).symm.trans ((hfits.list k).mpr hk))

theorem fits_put_of_mem {l : ListId} {xs : List NodeId} {x : NodeId} {n : TreeNode α}
    (hx : x ∈ xs) (hone : ∀ k, k ≠ l → x ∉ rows k) (hlist : n.list = some l)
    (hprev : n.prev = Row.before x xs) (hnext : n.next = Row.after x xs) :
    Fits (put rows l xs) x n := by
  have hrow {k : ListId} (hk : x ∈ put rows l xs k) : k = l := by
    refine Decidable.byContradiction fun hne => hone k hne ?_
    rwa [put_of_ne hne] at hk
  constructor
  · intro k
    rw [hlist, Option.some.injEq]
    constructor
    · rintro rfl
      rwa [put_self]
    · exact fun hk => (hrow hk).symm
  · intro k hk
    obtain rfl := hrow hk
    rw [hprev, put_self]
  · intro k hk
    obtain rfl := hrow hk
    rw [hnext, put_self]
  · intro hnone
    rw [hlist] at hnone
    cases hnone

theorem fits_of_loose {x : NodeId} {n : TreeNode α} (hx : ∀ k, x ∉ rows k) (hlist : n.list = none)
    (hprev : n.prev = none) (hnext : n.next = none) : Fits rows x n where
  list := fun k => by simp [hlist, hx k]
  prev := fun k hk => absurd hk (hx k)
  next := fun k hk => absurd hk (hx k)
  loose := fun _ => ⟨hprev, hnext⟩

theorem Fits.put_of_not_mem {l : ListId} {xs : List NodeId} {x : NodeId} {n n' : TreeNode α}
    (h : Fits rows x n) (hx : x ∉ xs) (hxl : x ∉ rows l) (hlist : n'.list = n.list)
    (hprev : n'.prev = n.prev) (hnext : n'.next = n.next) : Fits (Links.put rows l xs) x n' := by
  have hrow {k : ListId} : x ∈ Links.put rows l xs k ↔ x ∈ rows k := by
    by_cases hk : k = l
    · rw [hk, put_self]
      exact iff_of_false hx hxl
    · rw [put_of_ne hk]
  have hsame {k : ListId} (hk : x ∈ rows k) : Links.put rows l xs k = rows k :=
    put_of_ne (fun he : k = l => hxl (he ▸ hk)) xs
  constructor
  · exact fun k => hlist ▸ (h.list k).trans hrow.symm
  · intro k hk
    have hk := hrow.mp hk
    rw [hprev, hsame hk, h.prev k hk]
  · intro k hk
    have hk := hrow.mp hk
    rw [hnext, hsame hk, h.next k hk]
  · rw [hlist, hprev, hnext]
    exact h.loose

/-- A node fits where one row is replaced: it is in the new row, or was in the old one only, or has
nothing to do with either. -/
theorem Fits.put {l : ListId} {xs : List NodeId} {x : NodeId} {n n' : TreeNode α}
    (h : Fits rows x n)
    (hin : x ∈ xs → (∀ k, k ≠ l → x ∉ rows k) ∧ n'.list = some l ∧
      n'.prev = Row.before x xs ∧ n'.next = Row.after x xs)
    (hout : x ∉ xs → x ∈ rows l → n'.list = none ∧ n'.prev = none ∧ n'.next = none)
    (helse : x ∉ xs → x ∉ rows l → n'.list = n.list ∧ n'.prev = n.prev ∧ n'.next = n.next) :
    Fits (Links.put rows l xs) x n' := by
  by_cases hx : x ∈ xs
  · obtain ⟨hone, hlist, hprev, hnext⟩ := hin hx
    exact fits_put_of_mem hx hone hlist hprev hnext
  · by_cases hxl : x ∈ rows l
    · obtain ⟨hlist, hprev, hnext⟩ := hout hx hxl
      refine fits_of_loose (fun k hk => ?_) hlist hprev hnext
      by_cases hkl : k = l
      · rw [hkl, put_self] at hk
        exact hx hk
      · rw [put_of_ne hkl] at hk
        exact h.not_mem_of_ne hxl hkl hk
    · obtain ⟨hlist, hprev, hnext⟩ := helse hx hxl
      exact h.put_of_not_mem hx hxl hlist hprev hnext

/-- Where entries change and one row with them, it is enough to look at that row. -/
theorem Holds.of_put (h : s.Holds rows) {l : ListId} {xs : List NodeId}
    {F : NodeId → TreeNode α → TreeNode α} {G : ListId → Siblings → Siblings}
    (hF : ∀ x, s'.node? x = (s.node? x).map (F x)) (hG : ∀ k, s'.list? k = (s.list? k).map (G k))
    (hnodup : xs.Nodup) (halive : ∀ x ∈ xs, s.contains x ∧ (s.list? l).isSome)
    (hfits : ∀ x n, Fits rows x n → Fits (put rows l xs) x (F x n))
    (hends : ∀ r, Ends (rows l) r → Ends xs (G l r))
    (helse : ∀ k r, k ≠ l → G k r = r) : s'.Holds (put rows l xs) := by
  refine Holds.of_map hF hG ?_ ?_ (fun x n hn => hfits x n (h.node x n hn)) ?_
  · intro k
    unfold put
    split
    · exact hnodup
    · exact h.nodup k
  · intro k x hx
    by_cases hk : k = l
    · rw [hk, put_self] at hx
      exact hk ▸ halive x hx
    · rw [put_of_ne hk] at hx
      exact h.alive k x hx
  · intro k r hr
    by_cases hk : k = l
    · subst hk
      rw [put_self]
      exact hends r (h.list k r hr)
    · rw [put_of_ne hk, helse k r hk]
      exact h.list k r hr

/-! ### One operation each -/

theorem holds_unlinked (h : s.Holds rows) {id : NodeId} {n : TreeNode α} {l : ListId}
    (hn : s.node? id = some n) (hl : n.list = some l) :
    (s.unlinked id n l).Holds (put rows l ((rows l).erase id)) := by
  have hfit := h.node id n hn
  have hmem : id ∈ rows l := (hfit.list l).mp hl
  have hp := hfit.prev l hmem
  have hq := hfit.next l hmem
  have hd := h.nodup l
  have hself := Row.after_ne_self (x := id) hd
  have hself' : Row.before id (rows l) ≠ some id := mt (Row.before_eq_some_iff hd).mp hself
  refine h.of_put (node?_unlinked s id n l) (list?_unlinked s id n l) (hd.erase id)
    (fun x hx => h.alive l x (List.mem_of_mem_erase hx)) ?_ ?_ fun k r hk => by simp [hk]
  · intro x m hm
    rw [hp, hq]
    have hbefore : Row.before id (rows l) = some x ↔ Row.after x (rows l) = some id :=
      Row.before_eq_some_iff hd
    have hafter : Row.after id (rows l) = some x ↔ Row.before x (rows l) = some id :=
      (Row.before_eq_some_iff hd).symm
    refine hm.put ?_ ?_ ?_
    · intro hx
      obtain ⟨hne, hx⟩ := hd.mem_erase_iff.mp hx
      refine ⟨fun k hk => hm.not_mem_of_ne hx hk, ?_⟩
      simp only [if_neg hne, Row.before_erase hd hne, Row.after_erase hd hne, hafter, hbefore,
        hm.prev l hx, hm.next l hx, (hm.list l).mpr hx, and_self]
    · intro hx hxl
      obtain rfl : x = id :=
        Decidable.byContradiction fun hne => hx (hd.mem_erase_iff.mpr ⟨hne, hxl⟩)
      simp [hself, hself']
    · intro hx hxl
      have hne : x ≠ id := fun he => hxl (he ▸ hmem)
      have hxa : Row.after id (rows l) ≠ some x := fun he => hxl (Row.mem_of_after he).2
      have hxb : Row.before id (rows l) ≠ some x := fun he => hxl (Row.mem_of_before hd he).2
      simp [hne, hxa, hxb]
  · intro r hr
    rw [hp, hq]
    have hhead := Row.before_eq_none_iff hmem
    have htail := Row.after_eq_none_iff hd hmem
    constructor
    · simp [Row.head?_erase, hr.head, hhead]
    · simp [Row.getLast?_erase hd, hr.tail, htail]
    · simp [List.length_erase_of_mem hmem, hr.length]

theorem holds_linkedBehind (h : s.Holds rows) {anchor id : NodeId} {l : ListId}
    (hid : s.contains id) (hout : ∀ k, id ∉ rows k) (ha : anchor ∈ rows l) :
    (s.linkedBehind l anchor id (Row.after anchor (rows l))).Holds
      (put rows l (Row.insertBehind anchor id (rows l))) := by
  have hd := h.nodup l
  have hy := hout l
  have hne : anchor ≠ id := fun he => hy (he ▸ ha)
  have hnext : Row.after anchor (rows l) ≠ some id := fun he => hy (Row.mem_of_after he).2
  have hmem (x : NodeId) := Row.mem_insertBehind (x := x) (y := id) ha
  refine h.of_put (node?_linkedBehind s l hne hnext) (list?_linkedBehind s l anchor id _)
    (Row.nodup_insertBehind hd hy ha) ?_ ?_ ?_ fun k r hk => by simp [hk]
  · intro x hx
    rcases (hmem x).mp hx with rfl | hx
    · exact ⟨hid, (h.alive l anchor ha).2⟩
    · exact h.alive l x hx
  · intro x m hm
    have hafter : Row.after anchor (rows l) = some x ↔ Row.before x (rows l) = some anchor :=
      (Row.before_eq_some_iff hd).symm
    refine hm.put (fun hx => ?_) (fun hx hxl => absurd ((hmem x).mpr (.inr hxl)) hx)
      fun hx hxl => ?_
    · rw [Row.before_insertBehind hd hy ha, Row.after_insertBehind hd hy ha]
      rcases (hmem x).mp hx with rfl | hx
      · exact ⟨fun k _ => hout k, by simp [Ne.symm hne]⟩
      · have hxid : x ≠ id := fun he => hy (he ▸ hx)
        refine ⟨fun k hk => hm.not_mem_of_ne hx hk, ?_⟩
        simp [hxid, hafter, hm.prev l hx, hm.next l hx, (hm.list l).mpr hx]
    · have hxid : x ≠ id := fun he => hx ((hmem x).mpr (.inl he))
      have hxa : x ≠ anchor := fun he => hxl (he ▸ ha)
      have hxn : Row.after anchor (rows l) ≠ some x := fun he => hxl (Row.mem_of_after he).2
      simp [hxid, hxa, hxn]
  · intro r hr
    have htail := Row.after_eq_none_iff hd ha
    constructor
    · simp [Row.head?_insertBehind, hr.head]
    · simp [Row.getLast?_insertBehind hd hy ha, hr.tail, htail]
    · simp [Row.length_insertBehind ha, hr.length]

theorem holds_linkedAlone (h : s.Holds rows) {id : NodeId} {l : ListId} (hid : s.contains id)
    (hout : ∀ k, id ∉ rows k) (hl : (s.list? l).isSome) (hrow : rows l = []) :
    (s.linkedAlone l id).Holds (put rows l [id]) := by
  refine h.of_put (node?_linkedAlone s l id) (list?_linkedAlone s l id) (by simp) ?_ ?_ ?_
    fun k r hk => by simp [hk]
  · intro x hx
    obtain rfl := List.mem_singleton.mp hx
    exact ⟨hid, hl⟩
  · intro x m hm
    refine hm.put (fun hx => ?_) (fun _ hxl => ?_) fun hx _ => ?_
    · obtain rfl := List.mem_singleton.mp hx
      exact ⟨fun k _ => hout k, by simp [Row.before, Row.beforeFrom, Row.after]⟩
    · rw [hrow] at hxl
      cases hxl
    · have hne : x ≠ id := fun he => hx (List.mem_singleton.mpr he)
      simp [hne]
  · intro r hr
    constructor <;> simp

theorem holds_swapped (h : s.Holds rows) {a b : NodeId} {l : ListId}
    (hab : Row.after a (rows l) = some b) :
    (s.swapped l a b (Row.before a (rows l)) (Row.after b (rows l))).Holds
      (put rows l (Row.exchange a b (rows l))) := by
  have hd := h.nodup l
  obtain ⟨ha, hb⟩ := Row.mem_of_after hab
  have hne : a ≠ b := fun he => Row.after_ne_self hd (he ▸ hab)
  have hmem (x : NodeId) := Row.mem_exchange (x := x) hd hab
  refine h.of_put (node?_swapped s l hne _ _) (list?_swapped s l a b _ _)
    (Row.nodup_exchange hd hab) (fun x hx => h.alive l x ((hmem x).mp hx)) ?_ ?_
    fun k r hk => by simp [hk]
  · intro x m hm
    have hbefore : Row.before a (rows l) = some x ↔ Row.after x (rows l) = some a :=
      Row.before_eq_some_iff hd
    have hafter : Row.after b (rows l) = some x ↔ Row.before x (rows l) = some b :=
      (Row.before_eq_some_iff hd).symm
    refine hm.put (fun hx => ?_) (fun hx hxl => absurd ((hmem x).mpr hxl) hx) fun _ hxl => ?_
    · have hx := (hmem x).mp hx
      refine ⟨fun k hk => hm.not_mem_of_ne hx hk, (hm.list l).mpr hx, ?_, ?_⟩
      · simp only [Row.before_exchange hd hab, hafter, hm.prev l hx]
      · simp only [Row.after_exchange hd hab, hbefore, hm.next l hx]
        by_cases hxa : x = a <;> simp [hxa, hne]
    · have hxa : x ≠ a := fun he => hxl (he ▸ ha)
      have hxb : x ≠ b := fun he => hxl (he ▸ hb)
      have hxp : Row.before a (rows l) ≠ some x := fun he => hxl (Row.mem_of_before hd he).2
      have hxn : Row.after b (rows l) ≠ some x := fun he => hxl (Row.mem_of_after he).2
      simp [hxa, hxb, hxp, hxn]
  · intro r hr
    have hhead := Row.before_eq_none_iff ha
    have htail := Row.after_eq_none_iff hd hb
    constructor
    · simp [Row.head?_exchange hd hab, hr.head, hhead]
    · simp [Row.getLast?_exchange hd hab, hr.tail, htail]
    · simp [hr.length]

/-! ### Walking a row

A walk from the head of a list meets its row: what is ahead of a cursor is a suffix of the row, and
the link of the cursor leads to the head of the next shorter one. -/

theorem Holds.head?_eq (h : s.Holds rows) {l : ListId} (hl : (s.list? l).isSome) :
    s.head? l = (rows l).head? := by
  obtain ⟨r, hr⟩ := Option.isSome_iff_exists.mp hl
  rw [head?, hr]
  exact (h.list l r hr).head

theorem Holds.tail?_eq (h : s.Holds rows) {l : ListId} (hl : (s.list? l).isSome) :
    s.tail? l = (rows l).getLast? := by
  obtain ⟨r, hr⟩ := Option.isSome_iff_exists.mp hl
  rw [tail?, hr]
  exact (h.list l r hr).tail

theorem Holds.row_of_dead (h : s.Holds rows) {l : ListId} (hl : s.list? l = none) :
    rows l = [] := by
  refine List.eq_nil_iff_forall_not_mem.mpr fun x hx => ?_
  have := (h.alive l x hx).2
  rw [hl] at this
  cases this

theorem Holds.next?_eq (h : s.Holds rows) {l : ListId} {x : NodeId} (hx : x ∈ rows l) :
    s.next? x = Row.after x (rows l) := by
  obtain ⟨n, hn⟩ := Option.isSome_iff_exists.mp (h.alive l x hx).1
  rw [next?, hn]
  exact (h.node x n hn).next l hx

theorem Holds.length_le_size (h : s.Holds rows) (l : ListId) : (rows l).length ≤ s.size := by
  have hkeys : ((rows l).map (·.key)).Nodup := by
    refine List.pairwise_map.mpr ((h.nodup l).imp fun {x y} hne hkey => hne ?_)
    cases x; cases y; exact congrArg NodeId.mk hkey
  have := Arena.length_le_size (a := s.nodes) hkeys fun k hk => by
    obtain ⟨x, hx, rfl⟩ := List.mem_map.mp hk
    exact (h.alive l x hx).1
  simpa [size] using this

theorem Holds.not_mem_of_append (h : s.Holds rows) {l : ListId} {pre ys : List NodeId} {x : NodeId}
    (hrow : rows l = pre ++ x :: ys) : x ∉ pre := by
  have hd := h.nodup l
  rw [hrow] at hd
  exact fun hx => (List.nodup_append.mp hd).2.2 x hx x List.mem_cons_self rfl

theorem Holds.walk_eq (h : s.Holds rows) {l : ListId} {pre xs : List NodeId}
    (hrow : rows l = pre ++ xs) {fuel : Nat} (hfuel : xs.length ≤ fuel) :
    s.walk fuel xs.head? = xs := by
  induction xs generalizing pre fuel with
  | nil => cases fuel <;> rfl
  | cons x xs ih =>
    obtain ⟨fuel, rfl⟩ : ∃ k, fuel = k + 1 := ⟨fuel - 1, by simp at hfuel; omega⟩
    have hahead : s.next? x = xs.head? := by
      rw [h.next?_eq (by simp [hrow] : x ∈ rows l), hrow,
        Row.after_append (h.not_mem_of_append hrow)]
    have hrest : rows l = (pre ++ [x]) ++ xs := by simp [hrow]
    rw [List.head?_cons, walk, hahead, ih hrest (by simpa using hfuel)]

/-- **The members of a list are its row.** -/
theorem Holds.members_eq (h : s.Holds rows) : s.members = rows := by
  funext l
  unfold members
  cases hl : s.list? l with
  | none =>
    rw [h.row_of_dead hl, head?, hl]
    cases s.nodes.nextKey <;> rfl
  | some r =>
    rw [h.head?_eq (by rw [hl]; rfl)]
    exact h.walk_eq (List.nil_append _).symm
      (Nat.le_trans (h.length_le_size l) s.nodes.size_le_nextKey)

theorem Holds.chainEnd?_eq (h : s.Holds rows) {l : ListId} {pre xs : List NodeId}
    (hrow : rows l = pre ++ xs) {left : Nat} (hleft : xs.length ≤ left) :
    s.chainEnd? l left pre.getLast? xs.head? = some (xs.getLast?.or pre.getLast?, xs.length) := by
  induction xs generalizing pre left with
  | nil => cases left <;> simp [chainEnd?]
  | cons x xs ih =>
    obtain ⟨left, rfl⟩ : ∃ k, left = k + 1 := ⟨left - 1, by simp at hleft; omega⟩
    have hx : x ∈ rows l := by simp [hrow]
    have hpre := h.not_mem_of_append hrow
    obtain ⟨n, hn⟩ := Option.isSome_iff_exists.mp (h.alive l x hx).1
    have hfit := h.node x n hn
    have hback : n.prev = pre.getLast? := by
      rw [hfit.prev l hx, hrow, Row.before_append hpre]
    have hahead : n.next = xs.head? := by
      rw [hfit.next l hx, hrow, Row.after_append hpre]
    have hsuffix : rows l = (pre ++ [x]) ++ xs := by simp [hrow]
    have hrest := ih hsuffix (Nat.le_of_succ_le_succ hleft)
    rw [List.getLast?_append, List.getLast?_singleton, Option.some_or] at hrest
    simp only [List.head?_cons, chainEnd?, hn, hback, (hfit.list l).mpr hx, and_self, if_true,
      hahead, hrest, Option.map_some, List.length_cons]
    cases xs <;> simp [List.getLast?_cons]

/-- **A list that is alive passes its own check.** -/
theorem Holds.validate_eq_true (h : s.Holds rows) {l : ListId} (hl : (s.list? l).isSome) :
    s.validate l = true := by
  obtain ⟨r, hr⟩ := Option.isSome_iff_exists.mp hl
  obtain ⟨hhead, htail, hlength⟩ := h.list l r hr
  have hend := h.chainEnd?_eq (List.nil_append _).symm (h.length_le_size l)
  simp only [validate, hr, hhead, htail, hlength, decide_eq_true_eq]
  simpa using hend

end Rows

/-! ### The operations on places -/

section Places

variable {s : Links α} {rows : ListId → List NodeId}

theorem Holds.listOf?_eq_some_iff (h : s.Holds rows) {x : NodeId} {l : ListId} :
    s.listOf? x = some l ↔ x ∈ rows l := by
  constructor
  · intro hl
    obtain ⟨n, hn, hnl⟩ := Option.bind_eq_some_iff.mp hl
    exact ((h.node x n hn).list l).mp hnl
  · intro hx
    obtain ⟨n, hn⟩ := Option.isSome_iff_exists.mp (h.alive l x hx).1
    rw [listOf?, hn]
    exact ((h.node x n hn).list l).mpr hx

theorem Holds.not_mem_of_listOf? (h : s.Holds rows) {x : NodeId} (hx : s.listOf? x = none)
    (l : ListId) : x ∉ rows l := fun hmem => by
  rw [h.listOf?_eq_some_iff.mpr hmem] at hx
  cases hx

theorem without_eq_put (h : s.Holds rows) {l : ListId} {id : NodeId} (hid : id ∈ rows l) :
    without rows id = put rows l ((rows l).erase id) := by
  funext k
  unfold without put
  split
  · rename_i hk; rw [hk]
  · rename_i hk
    exact List.erase_of_not_mem fun hmem => hk (h.eq_of_mem hmem hid)

theorem without_eq_self {id : NodeId} (hid : ∀ k, id ∉ rows k) : without rows id = rows :=
  funext fun k => List.erase_of_not_mem (hid k)

theorem Holds.not_mem_without (h : s.Holds rows) (id : NodeId) (k : ListId) :
    id ∉ without rows id k :=
  (h.nodup k).not_mem_erase

theorem mem_without_of_ne {x id : NodeId} (hne : x ≠ id) {k : ListId} (hx : x ∈ rows k) :
    x ∈ without rows id k :=
  (List.mem_erase_of_ne hne).mpr hx

theorem splice_of_loose {id : NodeId} (hid : s.listOf? id = none) :
    s.splice id = .ok (false, s) := by
  unfold splice
  cases hn : s.node? id with
  | none => rfl
  | some n =>
    have hl : n.list = none := by simpa [listOf?, hn] using hid
    simp only [hl]

theorem splice_of_linked (h : s.Holds rows) {id : NodeId} {n : TreeNode α} {l : ListId}
    (hn : s.node? id = some n) (hl : n.list = some l) :
    s.splice id = .ok (true, s.unlinked id n l) := by
  have hfit := h.node id n hn
  have hmem : id ∈ rows l := (hfit.list l).mp hl
  have halive := (h.alive l id hmem).2
  have hprev : ∀ x, n.prev = some x → s.contains x := fun x hx =>
    (h.alive l x (Row.mem_of_before (h.nodup l) ((hfit.prev l hmem).symm.trans hx)).2).1
  have hnext : ∀ x, n.next = some x → s.contains x := fun x hx =>
    (h.alive l x (Row.mem_of_after ((hfit.next l hmem).symm.trans hx)).2).1
  have hid := (h.alive l id hmem).1
  simp only [splice, hn, hl, bind, Except.bind]
  rw [editNode_of _ hid]
  simp only
  rw [linkNext_of _ (by simpa using hprev) (by simpa using halive)]
  simp only
  rw [linkPrev_of _ (by simpa using hnext) (by simpa using halive)]
  simp only
  rw [editList_of _ (by simpa using halive)]
  rfl

/-- **Taking a node out** takes it out of the row it was in. -/
theorem splice_spec (h : s.Holds rows) (id : NodeId) :
    ∃ s', s.splice id = .ok ((s.listOf? id).isSome, s') ∧ s'.Holds (without rows id) ∧
      s.Relinked s' := by
  cases hl : s.listOf? id with
  | none =>
    refine ⟨s, splice_of_loose hl, ?_, .refl s⟩
    rwa [without_eq_self (h.not_mem_of_listOf? hl)]
  | some l =>
    obtain ⟨n, hn, hnl⟩ := Option.bind_eq_some_iff.mp hl
    refine ⟨_, splice_of_linked h hn hnl, ?_, relinked_unlinked s id n l⟩
    rw [without_eq_put h (h.listOf?_eq_some_iff.mp hl)]
    exact holds_unlinked h hn hnl

theorem insertAfter_of_refused {anchor id : NodeId}
    (h : anchor = id ∨ s.contains id = false ∨ s.listOf? anchor = none) :
    s.insertAfter anchor id = .ok (false, s) := by
  unfold insertAfter
  split
  · rfl
  · rename_i hgo
    simp only [Bool.or_eq_true, decide_eq_true_eq, Bool.not_eq_true', not_or,
      Bool.not_eq_false] at hgo
    rcases h with h | h | h
    · exact absurd h hgo.1
    · rw [hgo.2] at h; cases h
    · rw [h]

/-- **Putting a node behind another one** takes it out of the row it was in first. -/
theorem insertAfter_spec (h : s.Holds rows) {anchor id : NodeId} {l : ListId} (hne : anchor ≠ id)
    (hid : s.contains id) (ha : anchor ∈ rows l) :
    ∃ s', s.insertAfter anchor id = .ok (true, s') ∧
      s'.Holds (put (without rows id) l (Row.insertBehind anchor id ((rows l).erase id))) ∧
      s.Relinked s' := by
  obtain ⟨s₁, hs₁, h₁, hr₁⟩ := splice_spec h id
  have ha₁ : anchor ∈ without rows id l := mem_without_of_ne hne ha
  have hout := h.not_mem_without id
  have hid₁ : s₁.contains id := by rw [hr₁.contains]; exact hid
  obtain ⟨hanchor, hlist⟩ := h₁.alive l anchor ha₁
  obtain ⟨n, hn⟩ := Option.isSome_iff_exists.mp hanchor
  have hnext := (h₁.node anchor n hn).next l ha₁
  have hbehind : Row.after anchor (without rows id l) ≠ some id := fun he =>
    hout l (Row.mem_of_after he).2
  refine ⟨_, ?_, holds_linkedBehind h₁ hid₁ hout ha₁,
    hr₁.trans (relinked_linkedBehind s₁ l hne hbehind)⟩
  have hahead : ∀ x, n.next = some x → s₁.contains x := fun x hx =>
    (h₁.alive l x (Row.mem_of_after (hnext.symm.trans hx)).2).1
  have hgo : (decide (anchor = id) || !s.contains id) = false := by simp [hne, hid]
  simp only [insertAfter, hgo, Bool.false_eq_true, if_false, h.listOf?_eq_some_iff.mpr ha, hs₁,
    bind, Except.bind, nodeAt_of hn]
  rw [editNode_of _ hid₁]
  simp only
  rw [editNode_of _ (by simpa using hanchor)]
  simp only
  rw [linkPrev_of _ (by simpa using hahead) (by simpa using hlist)]
  simp only
  rw [editList_of _ (by simpa using hlist), hnext]
  rfl

/-- **Putting a node into an empty list** makes it the whole row. -/
theorem insertAlone_spec (h : s.Holds rows) {id : NodeId} {l : ListId} (hid : s.contains id)
    (hl : (s.list? l).isSome) (hrow : rows l = []) :
    ∃ s', s.insertAlone l id = .ok (true, s') ∧ s'.Holds (put (without rows id) l [id]) ∧
      s.Relinked s' := by
  obtain ⟨s₁, hs₁, h₁, hr₁⟩ := splice_spec h id
  have hid₁ : s₁.contains id := by rw [hr₁.contains]; exact hid
  have hl₁ : (s₁.list? l).isSome := by rw [hr₁.isSome_list?]; exact hl
  have hrow₁ : without rows id l = [] := by simp [without, hrow]
  refine ⟨_, ?_, holds_linkedAlone h₁ hid₁ (h.not_mem_without id) hl₁ hrow₁,
    hr₁.trans (relinked_linkedAlone s₁ l id)⟩
  simp only [insertAlone, hs₁, bind, Except.bind]
  rw [editNode_of _ hid₁]
  simp only
  rw [editList_of _ (by simpa using hl₁)]
  rfl

theorem insert_of_refused {l : ListId} {id : NodeId}
    (h : s.contains id = false ∨ s.list? l = none) :
    s.insert l id = .ok (false, s) := by
  unfold insert
  rcases h with h | h <;> simp [h]

theorem pushBack_of_refused {l : ListId} {id : NodeId}
    (h : s.contains id = false ∨ s.list? l = none) : s.pushBack l id = .ok (false, s) := by
  unfold pushBack
  rcases h with h | h <;> simp [h]

/-- A node that stays where it is leaves all rows as they are. -/
theorem put_without_self (h : s.Holds rows) {l : ListId} {id : NodeId} (hid : id ∈ rows l) :
    put (without rows id) l (rows l) = rows := by
  funext k
  unfold put without
  split
  · rename_i hk; rw [hk]
  · rename_i hk
    exact List.erase_of_not_mem fun hmem => hk (h.eq_of_mem hmem hid)

theorem insert_spec (h : s.Holds rows) {l : ListId} {id : NodeId} (hid : s.contains id)
    (hl : (s.list? l).isSome) :
    ∃ s', s.insert l id = .ok (true, s') ∧
      s'.Holds (put (without rows id) l (Row.behindHead id (rows l))) ∧ s.Relinked s' := by
  have hgo : (!s.contains id || (s.list? l).isNone) = false := by
    obtain ⟨r, hr⟩ := Option.isSome_iff_exists.mp hl
    simp [hid, hr]
  simp only [insert, hgo, Bool.false_eq_true, if_false, h.head?_eq hl]
  cases hrow : rows l with
  | nil => exact insertAlone_spec h hid hl hrow
  | cons y ys =>
    by_cases hy : y = id
    · subst hy
      refine ⟨s, by simp, ?_, .refl s⟩
      have hmem : y ∈ rows l := by simp [hrow]
      have hself := put_without_self h hmem
      rw [hrow] at hself
      simpa [Row.behindHead, hself] using h
    · have hmem : y ∈ rows l := by simp [hrow]
      have := insertAfter_spec h hy hid hmem
      simpa [hrow, hy, Row.behindHead, Row.insertBehind, List.erase_cons] using this

theorem pushBack_spec (h : s.Holds rows) {l : ListId} {id : NodeId} (hid : s.contains id)
    (hl : (s.list? l).isSome) :
    ∃ s', s.pushBack l id = .ok (true, s') ∧
      s'.Holds (put (without rows id) l (Row.atTail id (rows l))) ∧ s.Relinked s' := by
  have hgo : (!s.contains id || (s.list? l).isNone) = false := by
    obtain ⟨r, hr⟩ := Option.isSome_iff_exists.mp hl
    simp [hid, hr]
  simp only [pushBack, hgo, Bool.false_eq_true, if_false, h.tail?_eq hl, Row.atTail]
  cases hlast : (rows l).getLast? with
  | none =>
    have hrow : rows l = [] := List.getLast?_eq_none_iff.mp hlast
    simpa [hrow] using insertAlone_spec h hid hl hrow
  | some y =>
    have hmem : y ∈ rows l := List.mem_of_getLast? hlast
    by_cases hy : y = id
    · subst hy
      refine ⟨s, by simp, ?_, .refl s⟩
      simpa [put_without_self h hmem] using h
    · have hstill : ((rows l).erase id).getLast? = some y := by
        rw [Row.getLast?_erase (h.nodup l), hlast, if_neg (by simpa using hy)]
      have := insertAfter_spec h hy hid hmem
      rw [Row.insertBehind_getLast? ((h.nodup l).erase id) hstill] at this
      simpa [hy] using this

theorem Holds.prev?_eq_some_iff (h : s.Holds rows) {x y : NodeId} :
    s.prev? x = some y ↔ ∃ l, Row.after y (rows l) = some x := by
  constructor
  · intro hp
    obtain ⟨n, hn, hny⟩ := Option.bind_eq_some_iff.mp hp
    have hfit := h.node x n hn
    cases hl : n.list with
    | none => rw [(hfit.loose hl).1] at hny; cases hny
    | some l =>
      refine ⟨l, (Row.before_eq_some_iff (h.nodup l)).mp ?_⟩
      rw [← hfit.prev l ((hfit.list l).mp hl), hny]
  · rintro ⟨l, hl⟩
    have hmem := (Row.mem_of_after hl).2
    obtain ⟨n, hn⟩ := Option.isSome_iff_exists.mp (h.alive l x hmem).1
    rw [prev?, hn, Option.bind_some, (h.node x n hn).prev l hmem]
    exact (Row.before_eq_some_iff (h.nodup l)).mpr hl

theorem Holds.next?_eq_some_iff (h : s.Holds rows) {x y : NodeId} :
    s.next? x = some y ↔ ∃ l, Row.after x (rows l) = some y := by
  constructor
  · intro hp
    obtain ⟨n, hn, hny⟩ := Option.bind_eq_some_iff.mp hp
    have hfit := h.node x n hn
    cases hl : n.list with
    | none => rw [(hfit.loose hl).2] at hny; cases hny
    | some l =>
      refine ⟨l, ?_⟩
      rw [← hfit.next l ((hfit.list l).mp hl), hny]
  · rintro ⟨l, hl⟩
    have hmem := (Row.mem_of_after hl).1
    obtain ⟨n, hn⟩ := Option.isSome_iff_exists.mp (h.alive l x hmem).1
    rw [next?, hn, Option.bind_some, (h.node x n hn).next l hmem, hl]

variable [Lockable α]

theorem swap_of_locked {a b : NodeId} (h : s.isLocked a || s.isLocked b) :
    s.swap a b = .ok (false, s) := by
  unfold swap
  rw [if_pos h]

/-- **Exchanging two neighbours** exchanges them in their row. -/
theorem swap_spec (h : s.Holds rows) {a b : NodeId} {l : ListId}
    (hab : Row.after a (rows l) = some b)
    (hfree : (s.isLocked a || s.isLocked b) = false) :
    ∃ s', s.swap a b = .ok (true, s') ∧ s'.Holds (put rows l (Row.exchange a b (rows l))) ∧
      s.Relinked s' := by
  have hd := h.nodup l
  obtain ⟨ha, hb⟩ := Row.mem_of_after hab
  have hne : a ≠ b := fun he => Row.after_ne_self hd (he ▸ hab)
  have hl := (h.alive l a ha).2
  obtain ⟨n, hn⟩ := Option.isSome_iff_exists.mp (h.alive l a ha).1
  obtain ⟨m, hm⟩ := Option.isSome_iff_exists.mp (h.alive l b hb).1
  have hprev := (h.node a n hn).prev l ha
  have hnext := (h.node b m hm).next l hb
  refine ⟨_, ?_, holds_swapped h hab, relinked_swapped s l hne _ _⟩
  have hbefore : ∀ x, n.prev = some x → s.contains x := fun x hx =>
    (h.alive l x (Row.mem_of_before hd (hprev.symm.trans hx)).2).1
  have hbehind : ∀ x, m.next = some x → s.contains x := fun x hx =>
    (h.alive l x (Row.mem_of_after (hnext.symm.trans hx)).2).1
  simp only [swap, hfree, Bool.false_eq_true, if_false, h.listOf?_eq_some_iff.mpr ha, nodeAt_of hn,
    nodeAt_of hm, bind, Except.bind]
  rw [linkNext_of _ hbefore hl]
  simp only
  rw [linkPrev_of _ (by simpa using hbehind) (by simpa using hl)]
  simp only
  rw [editNode_of _ (by simpa using (h.alive l b hb).1)]
  simp only
  rw [editNode_of _ (by simpa using (h.alive l a ha).1), hprev, hnext]
  rfl

end Places

end Links

end Toolpath
