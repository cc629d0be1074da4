import Toolpath.Tree.Links

/-!
# Links that change

An operation on places that does not fault is a few changes of single entries. Each of the four that
matter — a node taken out, put behind another one, put in alone, exchanged with its neighbour — is
given here as one store written out, together with what every entry of that store is. From these
equations everything else is derived; the operations themselves are not unfolded again.

The entries are stated as functions of the entries before, with one `if` for each link. Whether the
neighbour is a node or the end of the list is part of those conditions, so that the cases at the
ends of a list are not cases of the proofs.

## Main definitions

* `Links.Relinked` — two stores that differ in links only: the frame of every operation on places
* `Links.unlinked`, `linkedBehind`, `linkedAlone`, `swapped` — the stores the operations make
-/

namespace Toolpath

namespace Links

variable {α : Type}

/-! ### Entries -/

theorem node?_withNode (s : Links α) (id : NodeId) (f : TreeNode α → TreeNode α) (x : NodeId) :
    (s.withNode id f).node? x = (s.node? x).map fun n => if x = id then f n else n := by
  have hkey : x.key = id.key ↔ x = id := by cases x; cases id; simp
  simp only [node?, withNode, Arena.get?_modify, hkey]
  split <;> simp

@[simp] theorem list?_withNode (s : Links α) (id : NodeId) (f : TreeNode α → TreeNode α)
    (l : ListId) : (s.withNode id f).list? l = s.list? l := rfl

theorem list?_withList (s : Links α) (l : ListId) (f : Siblings → Siblings) (k : ListId) :
    (s.withList l f).list? k = (s.list? k).map fun r => if k = l then f r else r := by
  have hkey : k.key = l.key ↔ k = l := by cases k; cases l; simp
  simp only [list?, withList, Arena.get?_modify, hkey]
  split <;> simp

@[simp] theorem node?_withList (s : Links α) (l : ListId) (f : Siblings → Siblings) (x : NodeId) :
    (s.withList l f).node? x = s.node? x := rfl

theorem nodeAt_of {s : Links α} {id : NodeId} {n : TreeNode α} (h : s.node? id = some n) :
    s.nodeAt id = .ok n := by
  rw [nodeAt, h]

theorem editNode_of {s : Links α} {id : NodeId} (f : TreeNode α → TreeNode α)
    (h : s.contains id) : s.editNode id f = .ok (s.withNode id f) := by
  obtain ⟨n, hn⟩ := Option.isSome_iff_exists.mp h
  rw [editNode, hn]

theorem editList_of {s : Links α} {l : ListId} (f : Siblings → Siblings)
    (h : (s.list? l).isSome) : s.editList l f = .ok (s.withList l f) := by
  obtain ⟨r, hr⟩ := Option.isSome_iff_exists.mp h
  rw [editList, hr]

/-- What `linkNext` makes where nothing faults. -/
def withNext (s : Links α) (l : ListId) (prev v : Option NodeId) : Links α :=
  match prev with
  | some p => s.withNode p fun n => { n with next := v }
  | none => s.withList l fun r => { r with head := v }

/-- What `linkPrev` makes where nothing faults. -/
def withPrev (s : Links α) (l : ListId) (next v : Option NodeId) : Links α :=
  match next with
  | some x => s.withNode x fun n => { n with prev := v }
  | none => s.withList l fun r => { r with tail := v }

theorem node?_withNext (s : Links α) (l : ListId) (p v : Option NodeId) (x : NodeId) :
    (s.withNext l p v).node? x =
      (s.node? x).map fun n => if p = some x then { n with next := v } else n := by
  cases p with
  | none => simp [withNext]
  | some y =>
    rw [withNext, node?_withNode]
    by_cases h : x = y
    · simp [h]
    · simp [h, Ne.symm h]

theorem list?_withNext (s : Links α) (l : ListId) (p v : Option NodeId) (k : ListId) :
    (s.withNext l p v).list? k =
      (s.list? k).map fun r => if p = none ∧ k = l then { r with head := v } else r := by
  cases p with
  | none => simp [withNext, list?_withList]
  | some y => simp [withNext]

theorem node?_withPrev (s : Links α) (l : ListId) (q v : Option NodeId) (x : NodeId) :
    (s.withPrev l q v).node? x =
      (s.node? x).map fun n => if q = some x then { n with prev := v } else n := by
  cases q with
  | none => simp [withPrev]
  | some y =>
    rw [withPrev, node?_withNode]
    by_cases h : x = y
    · simp [h]
    · simp [h, Ne.symm h]

theorem list?_withPrev (s : Links α) (l : ListId) (q v : Option NodeId) (k : ListId) :
    (s.withPrev l q v).list? k =
      (s.list? k).map fun r => if q = none ∧ k = l then { r with tail := v } else r := by
  cases q with
  | none => simp [withPrev, list?_withList]
  | some y => simp [withPrev]

theorem linkNext_of {s : Links α} {l : ListId} {p : Option NodeId} (v : Option NodeId)
    (hp : ∀ x, p = some x → s.contains x) (hl : (s.list? l).isSome) :
    s.linkNext l p v = .ok (s.withNext l p v) := by
  cases p with
  | none => exact editList_of _ hl
  | some x => exact editNode_of _ (hp x rfl)

theorem linkPrev_of {s : Links α} {l : ListId} {q : Option NodeId} (v : Option NodeId)
    (hq : ∀ x, q = some x → s.contains x) (hl : (s.list? l).isSome) :
    s.linkPrev l q v = .ok (s.withPrev l q v) := by
  cases q with
  | none => exact editList_of _ hl
  | some x => exact editNode_of _ (hq x rfl)

@[simp] theorem contains_withNode (s : Links α) (id : NodeId) (f : TreeNode α → TreeNode α)
    (x : NodeId) : (s.withNode id f).contains x = s.contains x := by
  simp [contains, node?_withNode]

@[simp] theorem contains_withList (s : Links α) (l : ListId) (f : Siblings → Siblings)
    (x : NodeId) :
    (s.withList l f).contains x = s.contains x := rfl

@[simp] theorem contains_withNext (s : Links α) (l : ListId) (p v : Option NodeId) (x : NodeId) :
    (s.withNext l p v).contains x = s.contains x := by
  simp [contains, node?_withNext]

@[simp] theorem contains_withPrev (s : Links α) (l : ListId) (q v : Option NodeId) (x : NodeId) :
    (s.withPrev l q v).contains x = s.contains x := by
  simp [contains, node?_withPrev]

@[simp] theorem isSome_list?_withList (s : Links α) (l : ListId) (f : Siblings → Siblings)
    (k : ListId) : ((s.withList l f).list? k).isSome = (s.list? k).isSome := by
  simp [list?_withList]

@[simp] theorem isSome_list?_withNext (s : Links α) (l : ListId) (p v : Option NodeId)
    (k : ListId) :
    ((s.withNext l p v).list? k).isSome = (s.list? k).isSome := by
  simp [list?_withNext]

@[simp] theorem isSome_list?_withPrev (s : Links α) (l : ListId) (q v : Option NodeId)
    (k : ListId) :
    ((s.withPrev l q v).list? k).isSome = (s.list? k).isSome := by
  simp [list?_withPrev]

/-! ### What stays -/

/-- The second store is the first one with other links: the same nodes and lists are alive, with the
same items and the same owners. -/
structure Relinked (s s' : Links α) : Prop where
  node : ∀ x, (s'.node? x).map (fun n => (n.item, n.lists)) =
    (s.node? x).map fun n => (n.item, n.lists)
  list : ∀ l, (s'.list? l).map (·.owner) = (s.list? l).map (·.owner)
  nodes_nextKey : s'.nodes.nextKey = s.nodes.nextKey
  siblings_nextKey : s'.siblings.nextKey = s.siblings.nextKey
  size : s'.size = s.size

theorem Relinked.refl (s : Links α) : s.Relinked s := ⟨fun _ => rfl, fun _ => rfl, rfl, rfl, rfl⟩

theorem Relinked.symm {s s' : Links α} (h : s.Relinked s') : s'.Relinked s :=
  ⟨fun x => (h.node x).symm, fun l => (h.list l).symm, h.nodes_nextKey.symm,
    h.siblings_nextKey.symm, h.size.symm⟩

theorem Relinked.trans {s s' s'' : Links α} (h : s.Relinked s') (h' : s'.Relinked s'') :
    s.Relinked s'' where
  node := fun x => (h'.node x).trans (h.node x)
  list := fun l => (h'.list l).trans (h.list l)
  nodes_nextKey := h'.nodes_nextKey.trans h.nodes_nextKey
  siblings_nextKey := h'.siblings_nextKey.trans h.siblings_nextKey
  size := h'.size.trans h.size

theorem Relinked.contains {s s' : Links α} (h : s.Relinked s') (x : NodeId) :
    s'.contains x = s.contains x := by
  simpa [Links.contains] using congrArg Option.isSome (h.node x)

theorem Relinked.isSome_list? {s s' : Links α} (h : s.Relinked s') (l : ListId) :
    (s'.list? l).isSome = (s.list? l).isSome := by
  simpa using congrArg Option.isSome (h.list l)

theorem Relinked.get? {s s' : Links α} (h : s.Relinked s') (x : NodeId) : s'.get? x = s.get? x := by
  simpa [Links.get?, Option.map_map, Function.comp_def]
    using congrArg (Option.map Prod.fst) (h.node x)

/-! ### Taking a node out -/

/-- What `splice` makes of a node `n` in the list `l`. -/
def unlinked (s : Links α) (id : NodeId) (n : TreeNode α) (l : ListId) : Links α :=
  let s := s.withNode id fun m => { m with prev := none, next := none, list := none }
  ((s.withNext l n.prev n.next).withPrev l n.next n.prev).withList l fun r =>
    { r with length := r.length - 1 }

theorem node?_unlinked (s : Links α) (id : NodeId) (n : TreeNode α) (l : ListId) (x : NodeId) :
    (s.unlinked id n l).node? x = (s.node? x).map fun m =>
      { m with
        prev := if n.next = some x then n.prev else if x = id then none else m.prev
        next := if n.prev = some x then n.next else if x = id then none else m.next
        list := if x = id then none else m.list } := by
  simp only [unlinked, node?_withList, node?_withPrev, node?_withNext, node?_withNode,
    Option.map_map]
  congr 1
  funext m
  by_cases hx : x = id
  · subst hx
    by_cases hp : n.prev = some x <;> by_cases hq : n.next = some x <;> simp [hp, hq]
  · by_cases hp : n.prev = some x <;> by_cases hq : n.next = some x <;> simp [hx, hp, hq]

theorem list?_unlinked (s : Links α) (id : NodeId) (n : TreeNode α) (l k : ListId) :
    (s.unlinked id n l).list? k = (s.list? k).map fun r =>
      { r with
        head := if n.prev = none ∧ k = l then n.next else r.head
        tail := if n.next = none ∧ k = l then n.prev else r.tail
        length := if k = l then r.length - 1 else r.length } := by
  simp only [unlinked, list?_withList, list?_withPrev, list?_withNext, list?_withNode,
    Option.map_map]
  congr 1
  funext r
  by_cases hk : k = l <;> by_cases hp : n.prev = none <;> by_cases hq : n.next = none <;>
    simp [hk, hp, hq]

theorem relinked_unlinked (s : Links α) (id : NodeId) (n : TreeNode α) (l : ListId) :
    s.Relinked (s.unlinked id n l) := by
  refine ⟨fun x => ?_, fun k => ?_, ?_, ?_, ?_⟩
  · rw [node?_unlinked, Option.map_map]; rfl
  · rw [list?_unlinked, Option.map_map]; rfl
  all_goals
    unfold unlinked withNext withPrev
    cases n.prev <;> cases n.next <;> simp [withNode, withList, size]

/-! ### Putting a node in -/

/-- What `insertAfter` makes once the node is in no list. -/
def linkedBehind (s : Links α) (l : ListId) (anchor id : NodeId) (next : Option NodeId) : Links α :=
  let s := s.withNode id fun n => { n with prev := some anchor, next, list := some l }
  let s := s.withNode anchor fun n => { n with next := some id }
  (s.withPrev l next (some id)).withList l fun r => { r with length := r.length + 1 }

theorem node?_linkedBehind (s : Links α) (l : ListId) {anchor id : NodeId} {next : Option NodeId}
    (ha : anchor ≠ id) (hn : next ≠ some id) (x : NodeId) :
    (s.linkedBehind l anchor id next).node? x = (s.node? x).map fun m =>
      { m with
        prev := if x = id then some anchor else if next = some x then some id else m.prev
        next := if x = id then next else if x = anchor then some id else m.next
        list := if x = id then some l else m.list } := by
  simp only [linkedBehind, node?_withList, node?_withPrev, node?_withNode, Option.map_map]
  congr 1
  funext m
  by_cases hx : x = id
  · subst hx; simp [ha.symm, hn]
  · by_cases hxa : x = anchor
    · subst hxa; by_cases hq : next = some x <;> simp [hx, hq]
    · by_cases hq : next = some x <;> simp [hx, hxa, hq]

theorem list?_linkedBehind (s : Links α) (l : ListId) (anchor id : NodeId) (next : Option NodeId)
    (k : ListId) :
    (s.linkedBehind l anchor id next).list? k = (s.list? k).map fun r =>
      { r with
        tail := if next = none ∧ k = l then some id else r.tail
        length := if k = l then r.length + 1 else r.length } := by
  simp only [linkedBehind, list?_withList, list?_withPrev, list?_withNode, Option.map_map]
  congr 1
  funext r
  by_cases hk : k = l <;> by_cases hq : next = none <;> simp [hk, hq]

theorem relinked_linkedBehind (s : Links α) (l : ListId) {anchor id : NodeId} {next : Option NodeId}
    (ha : anchor ≠ id) (hn : next ≠ some id) : s.Relinked (s.linkedBehind l anchor id next) := by
  refine ⟨fun x => ?_, fun k => ?_, ?_, ?_, ?_⟩
  · rw [node?_linkedBehind s l ha hn, Option.map_map]; rfl
  · rw [list?_linkedBehind, Option.map_map]; rfl
  all_goals
    unfold linkedBehind withPrev
    cases next <;> simp [withNode, withList, size]

/-- What `insertAlone` makes once the node is in no list. -/
def linkedAlone (s : Links α) (l : ListId) (id : NodeId) : Links α :=
  let s := s.withNode id fun n => { n with prev := none, next := none, list := some l }
  s.withList l fun r => { r with head := some id, tail := some id, length := 1 }

theorem node?_linkedAlone (s : Links α) (l : ListId) (id x : NodeId) :
    (s.linkedAlone l id).node? x = (s.node? x).map fun m =>
      { m with
        prev := if x = id then none else m.prev
        next := if x = id then none else m.next
        list := if x = id then some l else m.list } := by
  simp only [linkedAlone, node?_withList, node?_withNode]
  congr 1
  funext m
  by_cases hx : x = id <;> simp [hx]

theorem list?_linkedAlone (s : Links α) (l : ListId) (id : NodeId) (k : ListId) :
    (s.linkedAlone l id).list? k = (s.list? k).map fun r =>
      { r with
        head := if k = l then some id else r.head
        tail := if k = l then some id else r.tail
        length := if k = l then 1 else r.length } := by
  simp only [linkedAlone, list?_withList, list?_withNode]
  congr 1
  funext r
  by_cases hk : k = l <;> simp [hk]

theorem relinked_linkedAlone (s : Links α) (l : ListId) (id : NodeId) :
    s.Relinked (s.linkedAlone l id) := by
  refine ⟨fun x => ?_, fun k => ?_, ?_, ?_, ?_⟩
  · rw [node?_linkedAlone, Option.map_map]; rfl
  · rw [list?_linkedAlone, Option.map_map]; rfl
  all_goals simp [linkedAlone, withNode, withList, size]

/-- What `swap` makes of `a` and the node `b` behind it. -/
def swapped (s : Links α) (l : ListId) (a b : NodeId) (before behind : Option NodeId) : Links α :=
  let s := (s.withNext l before (some b)).withPrev l behind (some a)
  let s := s.withNode b fun n => { n with prev := before, next := some a }
  s.withNode a fun n => { n with prev := some b, next := behind }

theorem node?_swapped (s : Links α) (l : ListId) {a b : NodeId} (hab : a ≠ b)
    (before behind : Option NodeId) (x : NodeId) :
    (s.swapped l a b before behind).node? x = (s.node? x).map fun m =>
      { m with
        prev := if x = a then some b else if x = b then before else
          if behind = some x then some a else m.prev
        next := if x = a then behind else if x = b then some a else
          if before = some x then some b else m.next } := by
  simp only [swapped, node?_withPrev, node?_withNext, node?_withNode, Option.map_map]
  congr 1
  funext m
  by_cases hxa : x = a
  · subst hxa
    by_cases hp : before = some x <;> by_cases hq : behind = some x <;> simp [hab, hp, hq]
  · by_cases hxb : x = b
    · subst hxb
      by_cases hp : before = some x <;> by_cases hq : behind = some x <;> simp [hxa, hp, hq]
    · by_cases hp : before = some x <;> by_cases hq : behind = some x <;> simp [hxa, hxb, hp, hq]

theorem list?_swapped (s : Links α) (l : ListId) (a b : NodeId) (before behind : Option NodeId)
    (k : ListId) :
    (s.swapped l a b before behind).list? k = (s.list? k).map fun r =>
      { r with
        head := if before = none ∧ k = l then some b else r.head
        tail := if behind = none ∧ k = l then some a else r.tail } := by
  simp only [swapped, list?_withPrev, list?_withNext, list?_withNode, Option.map_map]
  congr 1
  funext r
  by_cases hk : k = l <;> by_cases hp : before = none <;> by_cases hq : behind = none <;>
    simp [hk, hp, hq]

theorem relinked_swapped (s : Links α) (l : ListId) {a b : NodeId} (hab : a ≠ b)
    (before behind : Option NodeId) : s.Relinked (s.swapped l a b before behind) := by
  refine ⟨fun x => ?_, fun k => ?_, ?_, ?_, ?_⟩
  · rw [node?_swapped s l hab, Option.map_map]; rfl
  · rw [list?_swapped, Option.map_map]; rfl
  all_goals
    unfold swapped withNext withPrev
    cases before <;> cases behind <;> simp [withNode, withList, size]

end Links

end Toolpath
