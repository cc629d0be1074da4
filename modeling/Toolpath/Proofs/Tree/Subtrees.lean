import Mathlib.Data.List.Forall2
import Toolpath.Proofs.Tree.Branches
import Toolpath.Proofs.Tree.Levels
import Toolpath.Tree.Basic

/-!
# Subtrees as values

A node of a store *shows* a branch if the branch is what is below the node: item by item, list by
list and member by member. The relation is defined by the branch, so that it speaks of finite
subtrees only; a node that is below itself shows nothing.

A tree takes a branch out of its store by walking down with fuel. Whatever is too deep for the fuel
is silently left out, so that what comes out has to be compared with what is there. Where no owner
is around there is enough fuel: the members of such a list are not below themselves, and then they
have fewer levels than nodes were ever made.

Showing looks at items and at lists, and not at the place of a node among its siblings. A store that
*keeps* both for all nodes but one, which is in no list, shows the same branches everywhere else.

## Main definitions

* `Links.Shows` — the subtree below a node is a branch
* `Links.Keeps` — items, lists and members stay

## Main results

* `Links.Sound.exists_shows` — a node that is not below itself shows a branch
* `Links.Shows.descends` — what is below a node is in the branch that the node shows
* `Tree.forest_shows` — the forest of a list without an owner is what its members show
-/

namespace Toolpath

/-- Something for every element of a list. -/
theorem exists_forall₂ {α β : Type} {R : α → β → Prop} {xs : List α} (h : ∀ x ∈ xs, ∃ y, R x y) :
    ∃ ys, List.Forall₂ R xs ys := by
  induction xs with
  | nil => exact ⟨[], .nil⟩
  | cons x xs ih =>
    obtain ⟨y, hy⟩ := h x List.mem_cons_self
    obtain ⟨ys, hys⟩ := ih fun x hx => h x (List.mem_cons_of_mem _ hx)
    exact ⟨y :: ys, .cons hy hys⟩

theorem forall₂_of_mem {α β : Type} {R S : α → β → Prop} {xs : List α} {ys : List β}
    (h : List.Forall₂ R xs ys) (hRS : ∀ x ∈ xs, ∀ y ∈ ys, R x y → S x y) :
    List.Forall₂ S xs ys := by
  induction h with
  | nil => exact .nil
  | cons hxy _ ih =>
    refine .cons (hRS _ List.mem_cons_self _ List.mem_cons_self hxy) (ih fun x hx y hy => ?_)
    exact hRS x (List.mem_cons_of_mem _ hx) y (List.mem_cons_of_mem _ hy)

theorem forall₂_concat_iff {α β : Type} {R : α → β → Prop} {xs : List α} {ys : List β} {x : α}
    {y : β} : List.Forall₂ R (xs ++ [x]) (ys ++ [y]) ↔ List.Forall₂ R xs ys ∧ R x y := by
  rw [← List.forall₂_reverse_iff, List.reverse_append, List.reverse_append, List.reverse_singleton,
    List.reverse_singleton, List.singleton_append, List.singleton_append, List.forall₂_cons,
    List.forall₂_reverse_iff, and_comm]

theorem exists_right_of_forall₂ {α β : Type} {R : α → β → Prop} {xs : List α} {ys : List β}
    (h : List.Forall₂ R xs ys) {x : α} (hx : x ∈ xs) : ∃ y ∈ ys, R x y := by
  induction h with
  | nil => cases hx
  | cons hxy _ ih =>
    rcases List.mem_cons.mp hx with rfl | hx
    · exact ⟨_, List.mem_cons_self, hxy⟩
    · obtain ⟨y, hy, hr⟩ := ih hx
      exact ⟨y, List.mem_cons_of_mem _ hy, hr⟩

theorem exists_left_of_forall₂ {α β : Type} {R : α → β → Prop} {xs : List α} {ys : List β}
    (h : List.Forall₂ R xs ys) {y : β} (hy : y ∈ ys) : ∃ x ∈ xs, R x y :=
  exists_right_of_forall₂ (R := flip R) (List.Forall₂.flip h) hy

namespace Links

variable {α : Type} {s s' : Links α}

/-- The subtree below a node is a branch. -/
inductive Shows (s : Links α) : NodeId → Branch α → Prop where
  /-- The node has the item at the top, and its lists have members that show the branches below. -/
  | node {id : NodeId} {n : TreeNode α} {ls : List (List (Branch α))} (hn : s.node? id = some n)
    (hls : List.Forall₂ (fun l bs => List.Forall₂ (Shows s) (s.members l) bs) n.lists ls) :
    Shows s id (.node n.item ls)

theorem shows_node_iff {id : NodeId} {a : α} {ls : List (List (Branch α))} :
    s.Shows id (.node a ls) ↔ ∃ n, s.node? id = some n ∧ n.item = a ∧
      List.Forall₂ (fun l bs => List.Forall₂ s.Shows (s.members l) bs) n.lists ls := by
  constructor
  · intro h
    cases h with
    | node hn hls => exact ⟨_, hn, rfl, hls⟩
  · rintro ⟨n, hn, rfl, hls⟩
    exact .node hn hls

theorem Shows.contains {id : NodeId} {b : Branch α} (h : s.Shows id b) : s.contains id := by
  cases h with
  | node hn _ => rw [Links.contains, hn]; rfl

/-! ### What is below a node -/

/-- What every node below a node meets holds in the branch that the node shows. -/
theorem Shows.every_of_descends {P : α → Nat → Prop} {id : NodeId} {b : Branch α}
    (h : s.Shows id b)
    (hP : ∀ levels x n, s.Descends levels id x → s.node? x = some n → P n.item n.lists.length) :
    b.Every P := by
  induction b using Branch.forall_of_step generalizing id with
  | h a ls ih =>
    obtain ⟨n, hn, rfl, hls⟩ := shows_node_iff.mp h
    refine Branch.every_node_iff.mpr ⟨hls.length_eq ▸ hP 0 id n rfl hn, fun bs hbs b hb => ?_⟩
    obtain ⟨l, hl, hbranches⟩ := exists_left_of_forall₂ hls hbs
    obtain ⟨x, hx, hshows⟩ := exists_left_of_forall₂ hbranches hb
    exact ih bs hbs b hb hshows fun levels y m hy =>
      hP (levels + 1) y m ⟨x, ⟨n, l, hn, hl, hx⟩, hy⟩

/-- What every node of a store meets holds in every branch that it shows. -/
theorem Shows.every {P : α → Nat → Prop}
    (hP : ∀ x n, s.node? x = some n → P n.item n.lists.length) {id : NodeId} {b : Branch α}
    (h : s.Shows id b) : b.Every P :=
  h.every_of_descends fun _ x n _ => hP x n

/-- There is a node on the lowest level of a branch. -/
theorem Shows.exists_descends {id : NodeId} {b : Branch α} (h : s.Shows id b) :
    ∃ y, s.Descends b.height id y := by
  induction b using Branch.forall_of_step generalizing id with
  | h a ls ih =>
    obtain ⟨n, hn, rfl, hls⟩ := shows_node_iff.mp h
    cases hheight : (Branch.node n.item ls).height with
    | zero => exact ⟨id, rfl⟩
    | succ k =>
      obtain ⟨bs, hbs, b, hb, rfl⟩ := Branch.exists_of_height_eq_succ hheight
      obtain ⟨l, hl, hbranches⟩ := exists_left_of_forall₂ hls hbs
      obtain ⟨x, hx, hshows⟩ := exists_left_of_forall₂ hbranches hb
      obtain ⟨y, hy⟩ := ih bs hbs b hb hshows
      exact ⟨y, x, ⟨n, l, hn, hl, hx⟩, hy⟩

/-- **What is below a node is in the branch that the node shows**, so many levels further down. -/
theorem Shows.descends {levels : Nat} {x y : NodeId} {b : Branch α} (h : s.Shows x b)
    (hy : s.Descends levels x y) : ∃ c, s.Shows y c ∧ c.height + levels ≤ b.height ∧
      ∀ P : α → Nat → Prop, b.Every P → c.Every P := by
  induction levels generalizing x b with
  | zero =>
    obtain rfl : x = y := hy
    exact ⟨b, h, Nat.le_refl _, fun _ => id⟩
  | succ levels ih =>
    obtain ⟨z, ⟨m, l, hm, hl, hz⟩, hzy⟩ := hy
    obtain ⟨a, ls⟩ := b
    obtain ⟨n, hn, rfl, hls⟩ := shows_node_iff.mp h
    obtain rfl := Option.some.inj (hn.symm.trans hm)
    obtain ⟨bs, hbs, hbranches⟩ := exists_right_of_forall₂ hls hl
    obtain ⟨b, hb, hshows⟩ := exists_right_of_forall₂ hbranches hz
    obtain ⟨c, hc, hheight, hevery⟩ := ih hshows hzy
    have hlt := Branch.height_lt_of_mem (a := n.item) hbs hb
    refine ⟨c, hc, by omega, fun P hP => hevery P ?_⟩
    exact (Branch.every_node_iff.mp hP).2 bs hbs b hb

/-- A node that is not so deep shows a branch. -/
theorem Sound.exists_shows_of_shallow (h : s.Sound) {fuel : Nat} {id : NodeId} (hid : s.contains id)
    (hshallow : ¬ ∃ y, s.Descends fuel id y) : ∃ b, s.Shows id b := by
  induction fuel generalizing id with
  | zero => exact absurd ⟨id, rfl⟩ hshallow
  | succ fuel ih =>
    obtain ⟨n, hn⟩ := Option.isSome_iff_exists.mp hid
    have hmembers : ∀ l ∈ n.lists, ∃ bs, List.Forall₂ s.Shows (s.members l) bs := by
      intro l hl
      refine exists_forall₂ fun x hx => ih (h.holds.alive l x hx).1 ?_
      rintro ⟨y, hy⟩
      exact hshallow ⟨y, x, ⟨n, l, hn, hl, hx⟩, hy⟩
    obtain ⟨ls, hls⟩ := exists_forall₂ hmembers
    exact ⟨.node n.item ls, .node hn hls⟩

/-- **A node that is not below itself shows a branch**, with fewer levels than nodes were made. -/
theorem Sound.exists_shows (h : s.Sound) {id : NodeId} (hid : s.contains id)
    (hself : ¬ s.BelowItself id) : ∃ b, s.Shows id b ∧ b.height < s.nodes.nextKey := by
  have hshallow {levels : Nat} (hlevels : s.nodes.nextKey ≤ levels) :
      ¬ ∃ y, s.Descends levels id y :=
    fun ⟨_, hy⟩ => hself (h.descends_self_of_deep hid hlevels hy)
  obtain ⟨b, hb⟩ := h.exists_shows_of_shallow hid (hshallow (Nat.le_refl _))
  exact ⟨b, hb, Nat.lt_of_not_le fun hle => hshallow hle hb.exists_descends⟩

/-! ### Stores that show the same -/

/-- Items, lists and members stay, except for those of one node. -/
structure Keeps (s s' : Links α) (except : Option NodeId) : Prop where
  /-- Every other node has its item and its lists. -/
  node : ∀ {x n}, s.node? x = some n → except ≠ some x →
    ∃ m, s'.node? x = some m ∧ m.item = n.item ∧ m.lists = n.lists
  /-- The lists of every other node have their members. -/
  members : ∀ {x n l}, s.node? x = some n → l ∈ n.lists → except ≠ some x →
    s'.members l = s.members l

/-- A store that keeps what all nodes but one have shows the branches that this node is not in. -/
theorem Shows.keep_of_apart {except : Option NodeId} (hk : s.Keeps s' except) {id : NodeId}
    {b : Branch α} (hout : ∀ levels x, except = some x → ¬ s.Descends levels id x)
    (h : s.Shows id b) : s'.Shows id b := by
  induction b using Branch.forall_of_step generalizing id with
  | h a ls ih =>
    obtain ⟨n, hn, rfl, hls⟩ := shows_node_iff.mp h
    have hid : except ≠ some id := fun he => hout 0 id he rfl
    obtain ⟨m, hm, hitem, hlists⟩ := hk.node hn hid
    refine shows_node_iff.mpr ⟨m, hm, hitem, ?_⟩
    refine hlists ▸ forall₂_of_mem hls fun l hl bs hbs hbranches => ?_
    rw [hk.members hn hl hid]
    refine forall₂_of_mem hbranches fun x hx b hb hshows => ih bs hbs b hb ?_ hshows
    intro levels y hy hdescends
    exact hout (levels + 1) y hy ⟨x, ⟨n, l, hn, hl, hx⟩, hdescends⟩

/-- A node that is in no list is in no branch but its own. -/
theorem Shows.keep (hs : s.Sound) {except : Option NodeId} (hk : s.Keeps s' except)
    (hloose : ∀ x, except = some x → s.listOf? x = none) {id : NodeId} {b : Branch α}
    (hid : except ≠ some id) (h : s.Shows id b) : s'.Shows id b := by
  refine h.keep_of_apart hk fun levels x hx hdescends => ?_
  cases levels with
  | zero => exact hid (hdescends ▸ hx)
  | succ levels =>
    obtain ⟨-, -, y, ⟨-, l, -, -, hmem⟩, rfl⟩ := descends_add.mp hdescends
    exact hs.holds.not_mem_of_listOf? (hloose _ hx) l hmem

theorem Extends.keeps (hs : s.Sound) (h : s.Extends s') : s.Keeps s' none where
  node := fun hn _ => ⟨_, h.node hn, rfl, rfl⟩
  members := fun hn hl _ => by
    obtain ⟨-, r, hr, -⟩ := hs.owned.owned hn hl
    exact h.members (by rw [hr]; rfl)

/-- Where the members of one list change, everything stays except for its owner. -/
theorem Rearranged.keeps (hs : s.Sound) {l : ListId} {xs : List NodeId} {r : Siblings}
    (h : s.Rearranged s' (put s.members l xs)) (hr : s.list? l = some r) : s.Keeps s' r.owner where
  node := fun hn _ => h.relinked.symm.node?_lists hn
  members := fun {x n k} hn hk hx => by
    have hne : k ≠ l := by
      rintro rfl
      obtain ⟨-, q, hq, ho⟩ := hs.owned.owned hn hk
      obtain rfl := Option.some.inj (hr.symm.trans hq)
      exact hx ho
    rw [h.members, put, if_neg hne]

/-- Whatever is a child of a node stays one. -/
def Grows (s s' : Links α) : Prop := ∀ x y, s.IsChild x y → s'.IsChild x y

theorem Grows.descends (h : s.Grows s') {levels : Nat} {x y : NodeId} (hy : s.Descends levels x y) :
    s'.Descends levels x y := by
  induction levels generalizing x with
  | zero => exact hy
  | succ levels ih =>
    obtain ⟨z, hz, hzy⟩ := hy
    exact ⟨z, h x z hz, ih hzy⟩

theorem Extends.grows (hs : s.Sound) (h : s.Extends s') : s.Grows s' := by
  rintro x y ⟨n, l, hn, hl, hy⟩
  obtain ⟨-, r, hr, -⟩ := hs.owned.owned hn hl
  exact ⟨n, l, h.node hn, hl, by rwa [h.members (by rw [hr]; rfl)]⟩

theorem Sound.grows_newList (hs : s.Sound) (owner : Option NodeId) :
    s.Grows (s.newList owner).2 := by
  rintro x y ⟨n, l, hn, hl, hy⟩
  refine ⟨_, l, by rw [node?_newList, hn]; rfl, ?_, by rwa [hs.members_newList]⟩
  dsimp only
  split
  · exact List.mem_append_left _ hl
  · exact hl

/-- Where a list gets further members, whatever is a child of a node stays one. -/
theorem Rearranged.grows {l : ListId} {xs : List NodeId}
    (h : s.Rearranged s' (put s.members l xs)) (hxs : s.members l ⊆ xs) : s.Grows s' := by
  rintro x y ⟨n, k, hn, hk, hy⟩
  obtain ⟨m, hm, -, hlists⟩ := h.relinked.symm.node?_lists hn
  refine ⟨m, k, hm, hlists ▸ hk, ?_⟩
  rw [h.members, mem_put]
  split
  · rename_i hkl
    subst hkl
    exact hxs hy
  · exact hy

end Links

/-! ### Branches taken out -/

namespace Tree

variable {α : Type} {t : Tree α}

theorem map_filterMap_of_forall₂ {β γ δ : Type} {R : β → γ → Prop} {f : β → Option δ} {g : δ → γ}
    {xs : List β} {ys : List γ} (h : List.Forall₂ R xs ys)
    (hf : ∀ x ∈ xs, ∀ y ∈ ys, R x y → (f x).map g = some y) : (xs.filterMap f).map g = ys := by
  induction h with
  | nil => rfl
  | @cons x y xs ys hxy _ ih =>
    obtain ⟨z, hz, hgz⟩ := Option.map_eq_some_iff.mp
      (hf x List.mem_cons_self y List.mem_cons_self hxy)
    rw [List.filterMap_cons_some hz, List.map_cons, hgz,
      ih fun x hx y hy => hf x (List.mem_cons_of_mem _ hx) y (List.mem_cons_of_mem _ hy)]

/-- With enough fuel, what is taken out of a tree is what the node shows. -/
theorem branchTo_of_shows {fuel : Nat} {id : NodeId} {b : Branch α} (h : t.links.Shows id b)
    (hfuel : b.height < fuel) : (t.branchTo fuel id).map (Branch.map Prod.snd) = some b := by
  induction fuel generalizing id b with
  | zero => omega
  | succ fuel ih =>
    obtain ⟨a, ls⟩ := b
    obtain ⟨n, hn, rfl, hls⟩ := Links.shows_node_iff.mp h
    have hbelow := Branch.height_node_le_iff.mp (Nat.le_of_lt_succ hfuel)
    have hlists : n.lists.map (fun l => ((t.members l).filterMap (t.branchTo fuel)).map
        (Branch.map Prod.snd)) = ls := by
      refine List.forall₂_eq_eq_eq ▸ List.forall₂_map_left_iff.mpr ?_
      refine forall₂_of_mem hls fun l _ bs hbs hbranches => ?_
      exact map_filterMap_of_forall₂ hbranches fun x _ b hb hx => ih hx (hbelow bs hbs b hb)
    rw [branchTo, node?, hn, Option.map_some, Option.map_some, Branch.map_node, List.map_map]
    exact congrArg (fun ls => some (Branch.node n.item ls)) hlists

/-- The forest of a list is what its members show, where they have fewer levels than nodes were ever
made. -/
theorem forest_of_shows {l : ListId} {bs : List (Branch α)}
    (h : List.Forall₂ t.links.Shows (t.members l) bs)
    (hheight : ∀ b ∈ bs, b.height < t.links.nodes.nextKey) :
    (t.forest l).map (Branch.map Prod.snd) = bs :=
  map_filterMap_of_forall₂ h fun _ _ b hb hx => branchTo_of_shows hx (hheight b hb)

/-- **The forest of a list without an owner is what its members show.** -/
theorem forest_shows {l : ListId} (hl : t.owner? l = none) :
    List.Forall₂ t.links.Shows (t.members l) ((t.forest l).map (Branch.map Prod.snd)) := by
  have hmembers : ∀ x ∈ t.members l, ∃ b, t.links.Shows x b ∧
      b.height < t.links.nodes.nextKey := by
    intro x hx
    refine t.sound.exists_shows (t.sound.holds.alive l x hx).1 ?_
    -- a member that was below itself would be in a list that has an owner
    rintro ⟨levels, hself⟩
    obtain ⟨z, -, y, ⟨n, k, hn, hk, hxk⟩, rfl⟩ := Links.descends_add.mp hself
    obtain rfl := t.sound.holds.eq_of_mem hx hxk
    obtain ⟨-, r, hr, ho⟩ := t.sound.owned.owned hn hk
    rw [owner?, list?, hr, Option.bind_some, ho] at hl
    cases hl
  obtain ⟨bs, hbs⟩ := exists_forall₂ hmembers
  have hshows : List.Forall₂ t.links.Shows (t.members l) bs := hbs.imp fun _ _ h => h.1
  have hheight : ∀ b ∈ bs, b.height < t.links.nodes.nextKey := fun b hb => by
    obtain ⟨_, -, h⟩ := exists_left_of_forall₂ hbs hb
    exact h.2
  rwa [forest_of_shows hshows hheight]

/-- The labels of a branch that is taken out are nodes of the tree with their items. -/
theorem get?_of_mem_labels {fuel : Nat} {id x : NodeId} {a : α} {b : Branch (NodeId × α)}
    (h : t.branchTo fuel id = some b) (hx : (x, a) ∈ b.labels) : t.get? x = some a := by
  induction fuel generalizing id b with
  | zero => cases h
  | succ fuel ih =>
    obtain ⟨n, hn, rfl⟩ := Option.map_eq_some_iff.mp h
    rw [Branch.labels_node] at hx
    rcases List.mem_cons.mp hx with hx | hx
    · obtain ⟨rfl, rfl⟩ := Prod.mk.inj hx
      exact get?_of_node? hn
    · obtain ⟨bs, hbs, hx⟩ := List.mem_flatMap.mp hx
      obtain ⟨l, -, rfl⟩ := List.mem_map.mp hbs
      obtain ⟨c, hc, hx⟩ := List.mem_flatMap.mp hx
      obtain ⟨y, -, hy⟩ := List.mem_filterMap.mp hc
      exact ih hy hx

end Tree

end Toolpath
