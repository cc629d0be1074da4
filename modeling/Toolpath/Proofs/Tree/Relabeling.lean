import Toolpath.Proofs.Tree.Pruning

/-!
# Trees with other items

A function applied to every item of a tree changes the items and nothing else: the same nodes are in
the same places. So whatever a tree tells about places it tells about the tree with other items as
well, and a subtree of that is the subtree with other items.

Replacing one item is a special case in both directions: with all items made the same, the tree is
what it was before the item was replaced. So what does not see the items does not see this one.

## Main definitions

* `Tree.relabel` — a function applied to every item

## Main results

* `Tree.members_relabel`, `Tree.ancestors_relabel`, … — places stay
* `Tree.branch?_relabel`, `Tree.forest_relabel` — subtrees get the other items
* `Tree.unseen_modify` — what does not see the items does not see that one is replaced
-/

namespace Toolpath

namespace Arena

/-- A function applied to every value that is alive. -/
def map {β γ : Type} (f : β → γ) (a : Arena β) : Arena γ := ⟨a.cells.map (Option.map f)⟩

theorem get?_map {β γ : Type} (f : β → γ) (a : Arena β) (k : Nat) :
    (a.map f).get? k = (a.get? k).map f := by
  simp only [map, get?, Array.getElem?_map]
  cases a.cells[k]? <;> rfl

@[simp] theorem nextKey_map {β γ : Type} (f : β → γ) (a : Arena β) :
    (a.map f).nextKey = a.nextKey := by
  simp [map, nextKey]

theorem map_map {β γ δ : Type} (f : β → γ) (g : γ → δ) (a : Arena β) :
    (a.map f).map g = a.map (g ∘ f) := by
  simp [map, Option.map_comp_map]

/-- A change of a value that the function does not see. -/
theorem map_modify {β γ : Type} {f : β → γ} {g : β → β} (h : ∀ b, f (g b) = f b) (a : Arena β)
    (k : Nat) : (a.modify k g).map f = a.map f := by
  refine congrArg Arena.mk (Array.ext_getElem? fun j => ?_)
  rw [modify, Array.getElem?_map, Array.getElem?_map, Array.getElem?_modify]
  split
  · rcases a.cells[j]? with _ | _ | b
    · rfl
    · rfl
    · exact congrArg (some ∘ some) (h b)
  · rfl

theorem modify_modify {β : Type} (a : Arena β) (k : Nat) (f g : β → β) :
    (a.modify k f).modify k g = a.modify k (g ∘ f) := by
  refine congrArg Arena.mk (Array.ext_getElem? fun j => ?_)
  simp only [modify, Array.getElem?_modify]
  split
  · rw [Option.map_map, Option.map_comp_map]
  · rfl

theorem modify_comm {β : Type} {k j : Nat} (h : k ≠ j) (a : Arena β) (f g : β → β) :
    (a.modify k f).modify j g = (a.modify j g).modify k f := by
  refine congrArg Arena.mk (Array.ext_getElem? fun i => ?_)
  simp only [modify, Array.getElem?_modify]
  split <;> split <;> first | rfl | omega

end Arena

namespace Links

variable {α : Type} {s : Links α}

/-- A function applied to every item. -/
def relabel (f : α → α) (s : Links α) : Links α :=
  { s with nodes := s.nodes.map fun n => { n with item := f n.item } }

theorem node?_relabel (f : α → α) (s : Links α) (x : NodeId) :
    (s.relabel f).node? x = (s.node? x).map fun n => { n with item := f n.item } :=
  Arena.get?_map _ _ _

@[simp] theorem list?_relabel (f : α → α) (s : Links α) (l : ListId) :
    (s.relabel f).list? l = s.list? l := rfl

theorem relabel_modify {f g : α → α} (h : ∀ a, f (g a) = f a) (s : Links α) (x : NodeId) :
    (s.modify x g).relabel f = s.relabel f := by
  let relabeled (k : α → α) (n : TreeNode α) : TreeNode α := { n with item := k n.item }
  have hnode (n : TreeNode α) : relabeled f (relabeled g n) = relabeled f n :=
    congrArg (fun item => { n with item }) (h n.item)
  exact congrArg (fun nodes => { s with nodes }) (Arena.map_modify hnode s.nodes x.key)

theorem Holds.relabel {rows : ListId → List NodeId} (h : s.Holds rows) (f : α → α) :
    (s.relabel f).Holds rows := by
  refine Holds.of_map (G := fun _ r => r) (node?_relabel f s) (fun l => (Option.map_id' ..).symm)
    h.nodup h.alive (fun x n hn => ?_) h.list
  obtain ⟨hlist, hprev, hnext, hloose⟩ := h.node x n hn
  exact ⟨hlist, hprev, hnext, hloose⟩

theorem Owned.relabel {orphans : List ListId} (h : s.Owned orphans) (f : α → α) :
    (s.relabel f).Owned orphans where
  listed := fun {l r o} hl ho hout => by
    obtain ⟨n, hn, hmem⟩ := h.listed hl ho hout
    exact ⟨{ n with item := f n.item }, by rw [node?_relabel, hn]; rfl, hmem⟩
  owned := fun {o n l} hn hmem => by
    rw [node?_relabel] at hn
    obtain ⟨m, hm, rfl⟩ := Option.map_eq_some_iff.mp hn
    exact h.owned hm hmem
  nodup := fun {o n} hn => by
    rw [node?_relabel] at hn
    obtain ⟨m, hm, rfl⟩ := Option.map_eq_some_iff.mp hn
    have hnodup : m.lists.Nodup := h.nodup hm
    exact hnodup

theorem Sound.relabel (h : s.Sound) (f : α → α) : (s.relabel f).Sound :=
  (h.holds.relabel f).ordered (h.owned.relabel f)

end Links

namespace Tree

variable {α : Type}

/-- A function applied to every item. -/
def relabel (f : α → α) (t : Tree α) : Tree α := ⟨t.links.relabel f, t.sound.relabel f⟩

variable (f : α → α) (t : Tree α)

theorem node?_relabel (x : NodeId) :
    (t.relabel f).node? x = (t.node? x).map fun n => { n with item := f n.item } :=
  Links.node?_relabel f t.links x

theorem get?_relabel (x : NodeId) : (t.relabel f).get? x = (t.get? x).map f := by
  show ((t.relabel f).node? x).map (·.item) = ((t.node? x).map (·.item)).map f
  rw [node?_relabel, Option.map_map, Option.map_map]
  rfl

theorem relabel_relabel (g : α → α) : (t.relabel f).relabel g = t.relabel (g ∘ f) :=
  Tree.ext (congrArg (fun nodes => ({ t.links with nodes } : Links α)) (Arena.map_map ..))

/-- A change of an item that the function does not see. -/
theorem relabel_modify {f g : α → α} (h : ∀ a, f (g a) = f a) (t : Tree α) (x : NodeId) :
    (t.modify x g).relabel f = t.relabel f := by
  simp only [relabel, modify, Links.relabel_modify h]

@[simp] theorem members_relabel : (t.relabel f).members = t.members :=
  (t.sound.holds.relabel f).members_eq

@[simp] theorem owner?_relabel (l : ListId) : (t.relabel f).owner? l = t.owner? l := rfl

@[simp] theorem listOf?_relabel (x : NodeId) : (t.relabel f).listOf? x = t.listOf? x := by
  show ((t.relabel f).node? x).bind (·.list) = (t.node? x).bind (·.list)
  rw [node?_relabel]
  cases t.node? x <;> rfl

@[simp] theorem childLists_relabel (x : NodeId) : (t.relabel f).childLists x = t.childLists x := by
  rw [childLists, node?_relabel, Option.map_map]
  rfl

@[simp] theorem parent?_relabel (x : NodeId) : (t.relabel f).parent? x = t.parent? x := by
  rw [parent?, listOf?_relabel]
  rfl

@[simp] theorem preceding_relabel (x : NodeId) : (t.relabel f).preceding x = t.preceding x := by
  rw [preceding, preceding, listOf?_relabel, members_relabel]

@[simp] theorem ancestors_relabel (x : NodeId) : (t.relabel f).ancestors x = t.ancestors x := by
  have hto (fuel : Nat) (x : NodeId) :
      (t.relabel f).ancestorsTo fuel x = t.ancestorsTo fuel x := by
    induction fuel generalizing x with
    | zero => rfl
    | succ fuel ih =>
      rw [ancestorsTo, ancestorsTo, parent?_relabel]
      cases t.parent? x with
      | none => rfl
      | some p => exact congrArg (p :: ·) (ih p)
  rw [ancestors, ancestors, hto]
  exact congrArg (t.ancestorsTo · x) (Arena.nextKey_map _ _)

theorem branch?_relabel (x : NodeId) :
    (t.relabel f).branch? x = (t.branch? x).map (Branch.map (Prod.map id f)) := by
  have hto (fuel : Nat) (x : NodeId) : (t.relabel f).branchTo fuel x =
      (t.branchTo fuel x).map (Branch.map (Prod.map id f)) := by
    induction fuel generalizing x with
    | zero => rfl
    | succ fuel ih =>
      have hto : (t.relabel f).branchTo fuel =
          fun y => (t.branchTo fuel y).map (Branch.map (Prod.map id f)) := funext ih
      rw [branchTo, branchTo, node?_relabel, hto, members_relabel]
      cases t.node? x with
      | none => rfl
      | some n => simp [List.map_filterMap, Function.comp_def]
  rw [branch?, branch?, hto]
  exact congrArg (fun k => (t.branchTo k x).map _) (Arena.nextKey_map _ _)

theorem forest_relabel (l : ListId) :
    (t.relabel f).forest l = (t.forest l).map (Branch.map (Prod.map id f)) := by
  rw [forest, forest, members_relabel, List.map_filterMap]
  exact congrArg (List.filterMap · _) (funext (branch?_relabel f t))

@[simp] theorem subtree_relabel (x : NodeId) : (t.relabel f).subtree x = t.subtree x := by
  rw [subtree, branch?_relabel, Option.map_map]
  refine congrArg (Option.getD · []) (congrArg (Option.map · _) (funext fun b => ?_))
  rw [Function.comp_apply, Branch.labels_map, List.map_map]
  exact List.map_congr_left fun _ _ => rfl

/-! ### One item replaced -/

variable {f t}

/-- **What does not see the items does not see that one of them is replaced.** -/
theorem unseen_modify {β : Type} {F : Tree α → β} (hF : ∀ f t, F (t.relabel f) = F t)
    (t : Tree α) (x : NodeId) (f : α → α) : F (t.modify x f) = F t := by
  cases hx : t.get? x with
  | none => rw [modify_eq_self t x f fun a ha => by rw [hx] at ha; cases ha]
  | some a =>
    have hsame : (t.modify x f).relabel (fun _ => a) = t.relabel fun _ => a :=
      relabel_modify (g := f) (fun _ => rfl) t x
    rw [← hF _ (t.modify x f), hsame, hF]

theorem modify_modify (t : Tree α) (x : NodeId) (f g : α → α) :
    (t.modify x f).modify x g = t.modify x (g ∘ f) :=
  Tree.ext (congrArg (fun nodes => ({ t.links with nodes } : Links α)) (Arena.modify_modify ..))

theorem modify_comm {x y : NodeId} (h : x ≠ y) (t : Tree α) (f g : α → α) :
    (t.modify x f).modify y g = (t.modify y g).modify x f := by
  have hkey : x.key ≠ y.key := fun he => h (congrArg NodeId.mk he)
  exact Tree.ext (congrArg (fun nodes => ({ t.links with nodes } : Links α))
    (Arena.modify_comm hkey ..))

variable (t) (n : NodeId) (g : α → α)

@[simp] theorem ancestors_modify (x : NodeId) : (t.modify n g).ancestors x = t.ancestors x :=
  unseen_modify (F := (ancestors · x)) (fun f t => ancestors_relabel f t x) t n g

@[simp] theorem preceding_modify (x : NodeId) : (t.modify n g).preceding x = t.preceding x :=
  unseen_modify (F := (preceding · x)) (fun f t => preceding_relabel f t x) t n g

@[simp] theorem subtree_modify (x : NodeId) : (t.modify n g).subtree x = t.subtree x :=
  unseen_modify (F := (subtree · x)) (fun f t => subtree_relabel f t x) t n g

end Tree

end Toolpath
