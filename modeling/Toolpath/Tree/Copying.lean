import Toolpath.Tree.Ownership

/-!
# Copies

Copying a node adds nodes and lists and touches nothing that was there: the store afterwards
*extends* the one before. In particular what is below the node stays as it was while it is copied,
so that the copy of each level may be considered by itself.

A way down that does not end is the only thing that can stop a copy. How far it goes is a question
about the store before: `Links.Descends` counts the levels, and a copy that runs out of fuel has
found as many levels below the node as there was fuel.

## Main definitions

* `Links.Extends` — the store with further nodes and lists
* `Links.IsChild`, `Links.Descends` — being so many levels below a node
* `Links.Copied` — a store extended by a copy

## Main results

* `Links.duplicateTo_spec` — a copy extends a store in order, or there are as many levels as fuel
-/

namespace Toolpath

namespace Links

variable {α : Type}

/-! ### What keeps its place -/

/-- Of a node, its item and its lists, the rows that it is in say the rest. -/
theorem Fits.eq {rows rows' : ListId → List NodeId} {x : NodeId} {n n' : TreeNode α}
    (h : Fits rows x n) (h' : Fits rows' x n') (hitem : n'.item = n.item)
    (hlists : n'.lists = n.lists) (hx : ∀ l, x ∈ rows l ∨ x ∈ rows' l → rows' l = rows l) :
    n' = n := by
  have hlist : n'.list = n.list := Option.ext fun l => by
    rw [h.list l, h'.list l]
    exact ⟨fun hl => hx l (.inr hl) ▸ hl, fun hl => hx l (.inl hl) ▸ hl⟩
  have hlinks : n'.prev = n.prev ∧ n'.next = n.next := by
    cases hl : n.list with
    | none =>
      obtain ⟨hprev, hnext⟩ := h.loose hl
      obtain ⟨hprev', hnext'⟩ := h'.loose (hlist.trans hl)
      exact ⟨hprev'.trans hprev.symm, hnext'.trans hnext.symm⟩
    | some l =>
      have hmem := (h.list l).mp hl
      have hmem' := (h'.list l).mp (hlist.trans hl)
      rw [h'.prev l hmem', h'.next l hmem', h.prev l hmem, h.next l hmem, hx l (.inl hmem)]
      exact ⟨rfl, rfl⟩
  obtain ⟨hprev, hnext⟩ := hlinks
  cases n; cases n'
  simp_all

/-- Of a list, its row and its owner are all that there is. -/
theorem Ends.eq {row : List NodeId} {r r' : Siblings} (h : Ends row r) (h' : Ends row r')
    (howner : r'.owner = r.owner) : r' = r := by
  obtain ⟨hhead, htail, hlength⟩ := h
  obtain ⟨hhead', htail', hlength'⟩ := h'
  cases r; cases r'
  simp_all

/-- A node that is in no row that changed is as it was. -/
theorem Holds.node?_eq {s s' : Links α} {rows rows' : ListId → List NodeId} (h : s.Holds rows)
    (h' : s'.Holds rows') (hr : s.Relinked s') {x : NodeId}
    (hx : ∀ l, x ∈ rows l ∨ x ∈ rows' l → rows' l = rows l) : s'.node? x = s.node? x := by
  cases hn : s.node? x with
  | none =>
    have := hr.contains x
    rw [contains, contains, hn] at this
    simpa using this
  | some n =>
    obtain ⟨n', hn', hitem, hlists⟩ := hr.symm.node?_lists hn
    rw [hn', (h.node x n hn).eq (h'.node x n' hn') hitem hlists hx]

/-- A list whose row did not change is as it was. -/
theorem Holds.list?_eq {s s' : Links α} {rows rows' : ListId → List NodeId} (h : s.Holds rows)
    (h' : s'.Holds rows') (hr : s.Relinked s') {l : ListId} (hl : rows' l = rows l) :
    s'.list? l = s.list? l := by
  cases hq : s.list? l with
  | none =>
    have := hr.isSome_list? l
    rw [hq] at this
    simpa using this
  | some r =>
    obtain ⟨r', hr', howner⟩ := hr.symm.list?_owner hq
    rw [hr', (h.list l r hq).eq (hl ▸ h'.list l r' hr') howner]

/-! ### Stores that grow -/

/-- The second store is the first one with further nodes and lists. -/
structure Extends (s s' : Links α) : Prop where
  /-- Nodes are as they were. -/
  node : ∀ {x n}, s.node? x = some n → s'.node? x = some n
  /-- Lists are as they were. -/
  list : ∀ {l r}, s.list? l = some r → s'.list? l = some r
  /-- Lists have the members that they had. -/
  members : ∀ {l}, (s.list? l).isSome → s'.members l = s.members l

theorem Extends.refl (s : Links α) : s.Extends s := ⟨id, id, fun _ => rfl⟩

theorem Extends.contains {s s' : Links α} (h : s.Extends s') {x : NodeId} (hx : s.contains x) :
    s'.contains x := by
  obtain ⟨n, hn⟩ := Option.isSome_iff_exists.mp hx
  rw [Links.contains, h.node hn]
  rfl

theorem Extends.isSome_list? {s s' : Links α} (h : s.Extends s') {l : ListId}
    (hl : (s.list? l).isSome) : (s'.list? l).isSome := by
  obtain ⟨r, hr⟩ := Option.isSome_iff_exists.mp hl
  rw [h.list hr]
  rfl

theorem Extends.listOf? {s s' : Links α} (h : s.Extends s') {x : NodeId} (hx : s.contains x) :
    s'.listOf? x = s.listOf? x := by
  obtain ⟨n, hn⟩ := Option.isSome_iff_exists.mp hx
  rw [Links.listOf?, Links.listOf?, hn, h.node hn]

theorem Extends.trans {s s' s'' : Links α} (h : s.Extends s') (h' : s'.Extends s'') :
    s.Extends s'' :=
  ⟨fun hn => h'.node (h.node hn), fun hr => h'.list (h.list hr),
    fun hl => (h'.members (h.isSome_list? hl)).trans (h.members hl)⟩

/-- What is new to a store is new to the one that it extends. -/
theorem Extends.list?_eq_none {s s' : Links α} (h : s.Extends s') {l : ListId}
    (hl : s'.list? l = none) : s.list? l = none := by
  cases hr : s.list? l with
  | none => rfl
  | some r => rw [h.list hr] at hl; cases hl

theorem Sound.extends_create {s : Links α} (h : s.Sound) (item : α) :
    s.Extends (s.create item).2 where
  node := fun {x n} hn => by
    have hne : x ≠ (s.create item).1 := by rintro rfl; simp [Links.create] at hn
    rw [node?_create, if_neg hne, hn]
  list := id
  members := fun {l} _ => congrFun (h.members_create item) l

/-- A list for a node that is new. -/
theorem Sound.extends_newList {s base : Links α} (h : s.Sound) (hbase : base.Extends s) {o : NodeId}
    (ho : base.node? o = none) : base.Extends (s.newList (some o)).2 where
  node := fun {x n} hn => by
    have hne : some o ≠ some x := by
      intro hox
      rw [Option.some.inj hox, hn] at ho
      cases ho
    rw [node?_newList, hbase.node hn, Option.map_some, if_neg hne]
  list := fun {l r} hr => by
    have hne : l ≠ (s.newList (some o)).1 := by
      rw [fst_newList]
      rintro rfl
      have := hbase.list hr
      simp at this
    rw [list?_newList, if_neg hne, hbase.list hr]
  members := fun {l} hl => (congrFun (h.members_newList (some o)) l).trans (hbase.members hl)

/-- A node that is in no list put at the tail of one. -/
theorem Sound.pushBack_loose {s : Links α} (h : s.Sound) {l : ListId} {c : NodeId}
    (hl : (s.list? l).isSome) (hc : s.contains c) (hloose : s.listOf? c = none) :
    ∃ s', s.pushBack l c = .ok (true, s') ∧
      s.Rearranged s' (put s.members l (s.members l ++ [c])) := by
  have hout := h.holds.not_mem_of_listOf? hloose
  obtain ⟨s', hs', hr⟩ := h.pushBack hc hl
  have hlast : (s.members l).getLast? ≠ some c := fun he => hout l (List.mem_of_getLast? he)
  rw [without_eq_self hout, Row.atTail, if_neg hlast, List.erase_of_not_mem (hout l)] at hr
  exact ⟨s', hs', hr⟩

/-- A further member changes no node but itself and those that were members before. -/
theorem Rearranged.node?_of_pushed {s s' : Links α} {l : ListId} {c x : NodeId}
    (hr : s.Rearranged s' (put s.members l (s.members l ++ [c]))) (h : s.Sound)
    (hxl : x ∉ s.members l) (hxc : x ≠ c) : s'.node? x = s.node? x := by
  refine h.holds.node?_eq (hr.members ▸ hr.sound.holds) hr.relinked fun k hk => ?_
  rw [mem_put] at hk
  by_cases hkl : k = l
  · subst hkl
    simp [hxl, hxc] at hk
  · rw [put_of_ne hkl]

theorem Rearranged.list?_of_pushed {s s' : Links α} {l k : ListId} {c : NodeId}
    (hr : s.Rearranged s' (put s.members l (s.members l ++ [c]))) (h : s.Sound) (hk : k ≠ l) :
    s'.list? k = s.list? k :=
  h.holds.list?_eq (hr.members ▸ hr.sound.holds) hr.relinked (put_of_ne hk _)

/-- A new node put at the tail of a new list. -/
theorem Sound.extends_pushBack {s base : Links α} (h : s.Sound) (hb : base.Sound)
    (hbase : base.Extends s) {l : ListId} {c : NodeId} (hl : base.list? l = none)
    (halive : (s.list? l).isSome) (hnew : base.node? c = none) (hc : s.contains c)
    (hloose : s.listOf? c = none) :
    ∃ s', s.pushBack l c = .ok (true, s') ∧ s.Rearranged s' (put s.members l (s.members l ++ [c])) ∧
      base.Extends s' := by
  obtain ⟨s', hs', hr⟩ := h.pushBack_loose halive hc hloose
  have hne {k : ListId} (hk : (base.list? k).isSome) : k ≠ l := by
    rintro rfl
    rw [hl] at hk
    cases hk
  refine ⟨s', hs', hr, ⟨fun {x n} hn => ?_, fun {k r} hk => ?_, fun {k} hk => ?_⟩⟩
  · -- a node of `base` in the new list would have been in that list before it was there
    have hxl : x ∉ s.members l := fun hmem => by
      have hlist := ((h.holds.node x n (hbase.node hn)).list l).mpr hmem
      have hmem' := ((hb.holds.node x n hn).list l).mp hlist
      exact hne (hb.holds.alive l x hmem').2 rfl
    have hxc : x ≠ c := by
      rintro rfl
      rw [hn] at hnew
      cases hnew
    rw [hr.node?_of_pushed h hxl hxc, hbase.node hn]
  · rw [hr.list?_of_pushed h (hne (by rw [hk]; rfl)), hbase.list hk]
  · rw [hr.members, put_of_ne (hne hk), hbase.members hk]

/-! ### Levels below a node -/

/-- The second node is in a list of the first. -/
def IsChild (s : Links α) (x y : NodeId) : Prop :=
  ∃ n l, s.node? x = some n ∧ l ∈ n.lists ∧ y ∈ s.members l

/-- The second node is so many levels below the first. -/
def Descends (s : Links α) : Nat → NodeId → NodeId → Prop
  | 0, x, y => x = y
  | levels + 1, x, y => ∃ z, s.IsChild x z ∧ s.Descends levels z y

theorem Sound.contains_of_isChild {s : Links α} (h : s.Sound) {x y : NodeId} (hy : s.IsChild x y) :
    s.contains y := by
  obtain ⟨-, l, -, -, hmem⟩ := hy
  exact (h.holds.alive l y hmem).1

theorem Extends.isChild {s s' : Links α} (h : s.Extends s') (hs : s.Sound) {x y : NodeId}
    (hx : s.contains x) (hy : s'.IsChild x y) : s.IsChild x y := by
  obtain ⟨m, l, hm, hl, hmem⟩ := hy
  obtain ⟨n, hn⟩ := Option.isSome_iff_exists.mp hx
  obtain rfl := Option.some.inj (hm.symm.trans (h.node hn))
  obtain ⟨-, r, hr, -⟩ := hs.owned.owned hn hl
  rw [h.members (by rw [hr]; rfl)] at hmem
  exact ⟨m, l, hn, hl, hmem⟩

/-- Nothing is below a node that was not there already. -/
theorem Extends.descends {s s' : Links α} (h : s.Extends s') (hs : s.Sound) {levels : Nat}
    {x y : NodeId} (hx : s.contains x) (hy : s'.Descends levels x y) : s.Descends levels x y := by
  induction levels generalizing x with
  | zero => exact hy
  | succ levels ih =>
    obtain ⟨z, hz, hzy⟩ := hy
    have hz' := h.isChild hs hx hz
    exact ⟨z, hz', ih (hs.contains_of_isChild hz') hzy⟩

/-! ### Copying -/

/-- There is a result and it is as it should be, or the way down did not end, and then it goes
deep. -/
def Finishes {β : Type} (deep : Prop) (post : β → Prop) (r : Except Fault β) : Prop :=
  (r = .error .endless ∧ deep) ∨ ∃ b, r = .ok b ∧ post b

theorem Finishes.bind {β γ : Type} {deep : Prop} {post : β → Prop} {post' : γ → Prop}
    {r : Except Fault β} {k : β → Except Fault γ} (h : Finishes deep post r)
    (hk : ∀ b, post b → Finishes deep post' (k b)) : Finishes deep post' (r >>= k) := by
  rcases h with ⟨rfl, hdeep⟩ | ⟨b, rfl, hb⟩
  · exact .inl ⟨rfl, hdeep⟩
  · exact hk b hb

theorem Finishes.of_deep {β : Type} {deep deep' : Prop} {post : β → Prop} {r : Except Fault β}
    (h : Finishes deep post r) (hdeep : deep → deep') : Finishes deep' post r := by
  rcases h with ⟨he, hd⟩ | hok
  · exact .inl ⟨he, hdeep hd⟩
  · exact .inr hok

theorem finishes_foldlM {β : Type} {step : Links α → β → Except Fault (Links α)} {deep : Prop}
    {inv : Links α → Prop} {bs : List β} {s : Links α}
    (hstep : ∀ s b, b ∈ bs → inv s → Finishes deep inv (step s b)) (hs : inv s) :
    Finishes deep inv (bs.foldlM step s) := by
  induction bs generalizing s with
  | nil => exact .inr ⟨s, rfl, hs⟩
  | cons b bs ih =>
    rw [List.foldlM_cons]
    exact (hstep s b List.mem_cons_self hs).bind fun s' hs' =>
      ih (fun s b hb => hstep s b (List.mem_cons_of_mem _ hb)) hs'

/-- A store in order that extends the one before, with a new node in no list. -/
structure Copied (base : Links α) (copy : NodeId) (s : Links α) : Prop where
  /-- It is in order. -/
  sound : s.Sound
  /-- What was there is as it was. -/
  grown : base.Extends s
  /-- The copy was not there before. -/
  fresh : base.node? copy = none
  /-- The copy is alive. -/
  alive : s.contains copy
  /-- The copy is in no list. -/
  loose : s.listOf? copy = none

theorem Copied.not_contains {base s : Links α} {copy : NodeId} (h : base.Copied copy s) :
    base.contains copy = false := by
  rw [contains, h.fresh]
  rfl

theorem Copied.ne_of_contains {base s : Links α} {copy x : NodeId} (h : base.Copied copy s)
    (hx : base.contains x) : x ≠ copy := by
  rintro rfl
  exact Bool.false_ne_true (h.not_contains.symm.trans hx)

theorem Copied.grow {base s s' : Links α} {copy : NodeId} (h : base.Copied copy s)
    (hs' : s'.Sound) (hgrown : s.Extends s') : base.Copied copy s' :=
  ⟨hs', h.grown.trans hgrown, h.fresh, hgrown.contains h.alive,
    (hgrown.listOf? h.alive).trans h.loose⟩

theorem Copied.newList {base s : Links α} {copy : NodeId} (h : base.Copied copy s) :
    base.Copied copy (s.newList (some copy)).2 where
  sound := h.sound.newList _
  grown := h.sound.extends_newList h.grown h.fresh
  fresh := h.fresh
  alive := by rw [contains, node?_newList, Option.isSome_map]; exact h.alive
  loose := by
    obtain ⟨n, hn⟩ := Option.isSome_iff_exists.mp h.alive
    have hloose := h.loose
    rw [listOf?, hn] at hloose
    rw [listOf?, node?_newList, hn, Option.map_some, if_pos rfl]
    exact hloose

/-- What is new to a later store is new. -/
theorem Copied.of_grown {base s s' : Links α} {copy c : NodeId} (h : base.Copied copy s)
    (hc : s.Copied c s') : base.Copied c s' := by
  refine ⟨hc.sound, h.grown.trans hc.grown, ?_, hc.alive, hc.loose⟩
  cases hn : base.node? c with
  | none => rfl
  | some n =>
    have := h.grown.node hn
    rw [hc.fresh] at this
    cases this

theorem Copied.ne {base s s' : Links α} {copy c : NodeId} (h : base.Copied copy s)
    (hc : s.Copied c s') : copy ≠ c :=
  hc.ne_of_contains h.alive

/-- A new node put at the tail of a new list, which is not a list that the copy is in. -/
theorem Copied.pushBack {base s s₁ : Links α} {copy c : NodeId} {l : ListId}
    (h : base.Copied copy s) (hb : base.Sound) (hl : base.list? l = none)
    (halive : (s.list? l).isSome) (hc : s.Copied c s₁) :
    ∃ s₂, s₁.pushBack l c = .ok (true, s₂) ∧ base.Copied copy s₂ ∧
      s₁.Rearranged s₂ (put s₁.members l (s₁.members l ++ [c])) ∧ s₂.node? copy = s.node? copy := by
  have h₁ := h.grow hc.sound hc.grown
  have halive₁ := hc.grown.isSome_list? halive
  have hcbase := h.of_grown hc
  obtain ⟨s₂, hs₂, hr, hgrown⟩ :=
    hc.sound.extends_pushBack hb h₁.grown hl halive₁ hcbase.fresh hc.alive hc.loose
  have hout := hc.sound.holds.not_mem_of_listOf? h₁.loose
  have hnode : s₂.node? copy = s₁.node? copy :=
    hr.node?_of_pushed hc.sound (hout l) (h.ne hc)
  obtain ⟨n, hn⟩ := Option.isSome_iff_exists.mp h.alive
  refine ⟨s₂, hs₂, ⟨hr.sound, hgrown, h.fresh, ?_, ?_⟩, hr, ?_⟩
  · rw [contains, hnode]; exact h₁.alive
  · rw [listOf?, hnode]; exact h₁.loose
  · rw [hnode, hn, hc.grown.node hn]

/-- What copying a node makes. -/
def CopyOf (base : Links α) (r : Option NodeId × Links α) : Prop :=
  r.2.Sound ∧ base.Extends r.2 ∧ ∀ c, r.1 = some c → base.Copied c r.2

section Levels

variable {copy : Links α → NodeId → Except Fault (Option NodeId × Links α)} {deep : Prop}
  {base : Links α} {id : NodeId}

theorem copyMember_spec (hb : base.Sound) {into : ListId} {child : NodeId} {s : Links α}
    (hcopy : ∀ s, s.Sound → base.Extends s → Finishes deep s.CopyOf (copy s child))
    (h : base.Copied id s) (hinto : base.list? into = none) (halive : (s.list? into).isSome) :
    Finishes deep (fun s' => base.Copied id s' ∧ (s'.list? into).isSome)
      (copyMember copy into s child) := by
  refine (hcopy s h.sound h.grown).bind ?_
  rintro ⟨c, s₁⟩ ⟨hs₁, hgrown, hc⟩
  have h₁ := h.grow hs₁ hgrown
  have halive₁ := hgrown.isSome_list? halive
  cases c with
  | none => exact .inr ⟨s₁, rfl, h₁, halive₁⟩
  | some c =>
    obtain ⟨s₂, hs₂, h₂, hr, -⟩ := h.pushBack hb hinto halive (hc c rfl)
    exact .inr ⟨s₂, by simp only [hs₂]; rfl, h₂, by rw [hr.relinked.isSome_list?]; exact halive₁⟩

theorem copyList_spec (hb : base.Sound) {l : ListId} (hl : (base.list? l).isSome) {s : Links α}
    (hcopy : ∀ child ∈ base.members l, ∀ s, s.Sound → base.Extends s →
      Finishes deep s.CopyOf (copy s child))
    (h : base.Copied id s) : Finishes deep (base.Copied id) (copyList copy id s l) := by
  have hmembers : (s.newList (some id)).2.members l = base.members l := h.newList.grown.members hl
  have hinto : base.list? (s.newList (some id)).1 = none :=
    h.grown.list?_eq_none (by rw [fst_newList]; simp)
  have hfinish : Finishes deep
      (fun s' => base.Copied id s' ∧ (s'.list? (s.newList (some id)).1).isSome)
      ((base.members l).foldlM (copyMember copy (s.newList (some id)).1)
        (s.newList (some id)).2) :=
    finishes_foldlM
      (fun s' child hchild hs' => copyMember_spec hb (hcopy child hchild) hs'.1 hinto hs'.2)
      ⟨h.newList, by rw [list?_newList, if_pos rfl]; rfl⟩
  rw [← hmembers] at hfinish
  rcases hfinish with hend | ⟨s', hs', hpost, -⟩
  · exact .inl hend
  · exact .inr ⟨s', hs', hpost⟩

end Levels

/-- **A copy extends the store**, or there are as many levels below the node as there was fuel. -/
theorem duplicateTo_spec (f : α → α) (fuel : Nat) {s : Links α} (h : s.Sound) (id : NodeId) :
    Finishes (∃ y, s.Descends fuel id y) s.CopyOf (s.duplicateTo f fuel id) := by
  induction fuel generalizing s id with
  | zero => exact .inl ⟨rfl, id, rfl⟩
  | succ fuel ih =>
    simp only [duplicateTo]
    cases hn : s.node? id with
    | none => exact .inr ⟨_, rfl, h, .refl s, fun c hc => by cases hc⟩
    | some n =>
      have hne : id ≠ (s.create (f n.item)).1 := by rintro rfl; simp [create] at hn
      have hn₁ : (s.create (f n.item)).2.node? id = some n := by rw [node?_create, if_neg hne, hn]
      have hcopied : s.Copied (s.create (f n.item)).1 (s.create (f n.item)).2 := by
        refine ⟨h.create _, h.extends_create _, by simp [create], ?_, ?_⟩
        · rw [contains, node?_create, if_pos rfl]; rfl
        · rw [listOf?, node?_create, if_pos rfl]; rfl
      have hlists : Finishes (∃ y, s.Descends (fuel + 1) id y) (s.Copied (s.create (f n.item)).1)
          (n.lists.foldlM (copyList (duplicateTo f fuel) (s.create (f n.item)).1)
            (s.create (f n.item)).2) := by
        refine finishes_foldlM (fun s₁ l hl h₁ => ?_) hcopied
        obtain ⟨-, r, hr, -⟩ := h.owned.owned hn hl
        refine copyList_spec h (by rw [hr]; rfl) (fun child hchild s₂ hs₂ hgrown => ?_) h₁
        refine (ih hs₂ child).of_deep ?_
        rintro ⟨y, hy⟩
        have halive := (h.holds.alive l child hchild).1
        exact ⟨y, child, ⟨n, l, hn, hl, hchild⟩, hgrown.descends h halive hy⟩
      simp only [nodeAt_of hn₁, bind, Except.bind]
      rcases hlists with ⟨he, hdeep⟩ | ⟨s', hs', h'⟩
      · exact .inl ⟨by rw [he], hdeep⟩
      · rw [hs']
        refine .inr ⟨_, rfl, h'.sound, h'.grown, fun c hc => ?_⟩
        obtain rfl := Option.some.inj hc
        exact h'

theorem Sound.of_duplicateWith {s : Links α} (h : s.Sound) {id : NodeId} {f : α → α}
    {r : Option NodeId × Links α} (hr : s.duplicateWith id f = .ok r) : r.2.Sound := by
  rcases duplicateTo_spec f (s.nodes.nextKey + 1) h id with ⟨he, -⟩ | ⟨r', hr', hsound, -⟩
  · cases he.symm.trans hr
  · obtain rfl := Except.ok.inj (hr.symm.trans hr')
    exact hsound

end Links

end Toolpath
