import Toolpath.Tree.Branch
import Toolpath.Tree.Copying

/-!
# Trees of siblings

A tree stores items as nodes and keeps nodes in lists. A node is in at most one list; a list may
be owned by a node, whose children its members then are. Nodes and lists are named by identifiers
that are never used again, so an identifier of something gone stays without effect.

A tree is linked nodes in order: it carries the proof, so an operation of a tree has no fault to
report and what is said of one tree is said of every tree that a program can make. Operations on
places answer whether they did anything.

## Main definitions

* `Tree` — linked nodes in order
* `Tree.settle` — the result of an operation that cannot fault
* `Tree.branch?`, `Tree.plant` — subtrees as values, and back
-/

namespace Toolpath

/-- Items in lists of siblings. -/
structure Tree (α : Type) where
  /-- The nodes and lists with their links. -/
  links : Links α
  /-- They are in order. -/
  sound : links.Sound

namespace Tree

variable {α β : Type}

@[ext] theorem ext {t u : Tree α} (h : t.links = u.links) : t = u := by
  cases t; cases u; cases h; rfl

/-- The tree without nodes and lists. -/
def empty : Tree α := ⟨Links.empty, Links.sound_empty⟩

instance : Inhabited (Tree α) := ⟨empty⟩

/-- The result of an operation that cannot fault. -/
def settle (r : Except Fault (β × Links α)) (h : Links.Settles r) : β × Tree α :=
  match r, h with
  | .ok (b, s), h => (b, ⟨s, by obtain ⟨_, _, hr, hs⟩ := h; cases hr; exact hs⟩)
  | .error _, h => absurd h (by rintro ⟨_, _, hr, -⟩; cases hr)

theorem settle_eq {r : Except Fault (β × Links α)} (h : Links.Settles r) {b : β} {s : Links α}
    (hr : r = .ok (b, s)) : (settle r h).1 = b ∧ (settle r h).2.links = s := by
  subst hr; exact ⟨rfl, rfl⟩

/-- The tree that an operation made, if it did anything. -/
def accepted (r : Bool × Tree α) : Option (Tree α) := if r.1 then some r.2 else none

/-! ### What a tree shows -/

/-- The lists. -/
def siblings (t : Tree α) : Arena Siblings := t.links.siblings

/-- A node with its place. -/
def node? (t : Tree α) (id : NodeId) : Option (TreeNode α) := t.links.node? id

/-- Whether a node is alive. -/
def contains (t : Tree α) (id : NodeId) : Bool := t.links.contains id

/-- The item of a node. -/
def get? (t : Tree α) (id : NodeId) : Option α := t.links.get? id

theorem get?_of_node? {t : Tree α} {id : NodeId} {n : TreeNode α} (h : t.node? id = some n) :
    t.get? id = some n.item :=
  congrArg (Option.map TreeNode.item) h

/-- The number of nodes alive, in a list or not. -/
def size (t : Tree α) : Nat := t.links.size

/-- A list, if it is alive. -/
def list? (t : Tree α) (l : ListId) : Option Siblings := t.links.list? l

/-- The siblings in a list, in order. -/
def members (t : Tree α) (l : ListId) : List NodeId := t.links.members l

/-- The node that owns a list. -/
def owner? (t : Tree α) (l : ListId) : Option NodeId := (t.list? l).bind (·.owner)

/-- The list that holds a node. -/
def listOf? (t : Tree α) (id : NodeId) : Option ListId := t.links.listOf? id

/-- The lists that a node owns. -/
def childLists (t : Tree α) (id : NodeId) : List ListId := ((t.node? id).map (·.lists)).getD []

theorem childLists_of_node? {t : Tree α} {id : NodeId} {n : TreeNode α} (h : t.node? id = some n) :
    t.childLists id = n.lists := by
  rw [childLists, h]
  rfl

/-- The node among whose children a node is. -/
def parent? (t : Tree α) (id : NodeId) : Option NodeId := (t.listOf? id).bind t.owner?

/-- The first node of a list. -/
def head? (t : Tree α) (l : ListId) : Option NodeId := t.links.head? l

/-- The last node of a list. -/
def tail? (t : Tree α) (l : ListId) : Option NodeId := t.links.tail? l

/-- The sibling directly before a node. -/
def prev? (t : Tree α) (id : NodeId) : Option NodeId := t.links.prev? id

/-- The sibling directly behind a node. -/
def next? (t : Tree α) (id : NodeId) : Option NodeId := t.links.next? id

/-- The siblings that precede a node, in order. -/
def preceding (t : Tree α) (id : NodeId) : List NodeId :=
  match t.listOf? id with
  | some l => (t.members l).takeWhile (· != id)
  | none => []

/-- Whether a node is alive and its item refuses removal and reordering. -/
def isLocked [Lockable α] (t : Tree α) (id : NodeId) : Bool := t.links.isLocked id

/-- Whether a list is alive and its chain is sound. -/
def validate (t : Tree α) (l : ListId) : Bool := t.links.validate l

/-! ### Making nodes and lists -/

/-- A further node outside every list. -/
def create (t : Tree α) (item : α) : NodeId × Tree α :=
  ((t.links.create item).1, ⟨(t.links.create item).2, t.sound.create item⟩)

/-- A further list without members. It is owned by `owner` if that node is alive. -/
def newList (t : Tree α) (owner : Option NodeId) : ListId × Tree α :=
  ((t.links.newList owner).1, ⟨(t.links.newList owner).2, t.sound.newList owner⟩)

/-- The item of a node replaced. -/
def modify (t : Tree α) (id : NodeId) (f : α → α) : Tree α :=
  ⟨t.links.modify id f, t.sound.modify id f⟩

/-! ### Moving nodes -/

/-- A node taken out of its list. Refused if it is in none. -/
def splice (t : Tree α) (id : NodeId) : Bool × Tree α :=
  settle (t.links.splice id) (t.sound.settles_splice id)

/-- A node put directly behind another one, wherever it was before. Refused for a node that is not
alive, behind a node that is in no list, and behind itself. -/
def insertAfter (t : Tree α) (anchor id : NodeId) : Bool × Tree α :=
  settle (t.links.insertAfter anchor id) (t.sound.settles_insertAfter anchor id)

/-- A node put directly behind the head of a list; into an empty list it goes as the head. A head
stays where it is. Refused if the node or the list is not alive. -/
def insert (t : Tree α) (l : ListId) (id : NodeId) : Bool × Tree α :=
  settle (t.links.insert l id) (t.sound.settles_insert l id)

/-- A node put at the tail of a list. A tail stays where it is. Refused if the node or the list is
not alive. -/
def pushBack (t : Tree α) (l : ListId) (id : NodeId) : Bool × Tree α :=
  settle (t.links.pushBack l id) (t.sound.settles_pushBack l id)

/-- A node exchanged with the sibling before it. Refused at the head and if one of the two is
locked. -/
def moveTowardHead [Lockable α] (t : Tree α) (id : NodeId) : Bool × Tree α :=
  settle (t.links.moveTowardHead id) (t.sound.settles_moveTowardHead id)

/-- A node exchanged with the sibling behind it. Refused at the tail and if one of the two is
locked. -/
def moveTowardTail [Lockable α] (t : Tree α) (id : NodeId) : Bool × Tree α :=
  settle (t.links.moveTowardTail id) (t.sound.settles_moveTowardTail id)

/-- `splice`, where it is not refused. -/
def detach? (t : Tree α) (id : NodeId) : Option (Tree α) := accepted (t.splice id)

/-- `insertAfter`, where it is not refused. -/
def insertAfter? (t : Tree α) (anchor id : NodeId) : Option (Tree α) :=
  accepted (t.insertAfter anchor id)

/-- `insert`, where it is not refused. -/
def insert? (t : Tree α) (l : ListId) (id : NodeId) : Option (Tree α) := accepted (t.insert l id)

/-- `pushBack`, where it is not refused. -/
def pushBack? (t : Tree α) (l : ListId) (id : NodeId) : Option (Tree α) :=
  accepted (t.pushBack l id)

/-- `moveTowardHead`, where it is not refused. -/
def moveTowardHead? [Lockable α] (t : Tree α) (id : NodeId) : Option (Tree α) :=
  accepted (t.moveTowardHead id)

/-- `moveTowardTail`, where it is not refused. -/
def moveTowardTail? [Lockable α] (t : Tree α) (id : NodeId) : Option (Tree α) :=
  accepted (t.moveTowardTail id)

/-! ### Destroying and copying -/

/-- A node removed with everything below it, and its item. Refused if it is locked or gone. -/
def remove? [Lockable α] (t : Tree α) (id : NodeId) : Option (α × Tree α) :=
  let (item, t) := settle (t.links.remove id) (t.sound.settles_remove id)
  item.map (·, t)

/-- Every node of a list destroyed with everything below it, locked or not. -/
def destroyList (t : Tree α) (l : ListId) : Tree α :=
  (settle ((t.links.destroyList l).map ((), ·)) (t.sound.settles_destroyList l)).2

/-- A copy of a subtree with `f` applied to every item, outside every list. Refused if the node is
gone; there is none if the node is below itself. -/
def duplicateWith? (t : Tree α) (id : NodeId) (f : α → α) : Option (NodeId × Tree α) :=
  match h : t.links.duplicateWith id f with
  | .ok (some copy, s) => some (copy, ⟨s, t.sound.of_duplicateWith h⟩)
  | _ => none

theorem duplicateWith?_eq_some_iff {t u : Tree α} {id copy : NodeId} {f : α → α} :
    t.duplicateWith? id f = some (copy, u) ↔
      t.links.duplicateWith id f = .ok (some copy, u.links) := by
  rw [duplicateWith?]
  constructor
  · intro h
    split at h
    · rename_i hs
      obtain ⟨rfl, rfl⟩ := Prod.mk.inj (Option.some.inj h)
      exact hs
    · cases h
  · intro h
    split
    · rename_i hs
      obtain ⟨hcopy, hlinks⟩ := Prod.mk.inj (Except.ok.inj (hs.symm.trans h))
      obtain rfl := Option.some.inj hcopy
      rw [show u = ⟨_, _⟩ from Tree.ext hlinks.symm]
    · rename_i hno
      exact absurd h (hno _ _)

/-! ### Whole subtrees -/

/-- The subtree below a node, to a depth that `fuel` bounds. -/
def branchTo (t : Tree α) : Nat → NodeId → Option (Branch (NodeId × α))
  | 0, _ => none
  | fuel + 1, id =>
    (t.node? id).map fun n =>
      .node (id, n.item) (n.lists.map fun l => (t.members l).filterMap (branchTo t fuel))

/-- The subtree below a node, with the name and the item of every node. There are no more levels
than nodes were ever made. -/
def branch? (t : Tree α) (id : NodeId) : Option (Branch (NodeId × α)) :=
  t.branchTo t.links.nodes.nextKey id

/-- The subtrees below the members of a list. -/
def forest (t : Tree α) (l : ListId) : List (Branch (NodeId × α)) :=
  (t.members l).filterMap t.branch?

/-- The nodes of a subtree, each before those below it. -/
def subtree (t : Tree α) (id : NodeId) : List NodeId :=
  ((t.branch? id).map fun b => b.labels.map Prod.fst).getD []

mutual

/-- A subtree planted from a value: its node outside every list, with a list for each list of the
value. -/
def plant (t : Tree α) : Branch α → NodeId × Tree α
  | .node item lists =>
    let (id, t) := t.create item
    (id, plantLists t id lists)

/-- Further lists planted under a node. -/
def plantLists (t : Tree α) (owner : NodeId) : List (List (Branch α)) → Tree α
  | [] => t
  | bs :: rest =>
    let (l, t) := t.newList (some owner)
    plantLists (plantForest t l bs) owner rest

/-- Further members planted at the tail of a list. -/
def plantForest (t : Tree α) (l : ListId) : List (Branch α) → Tree α
  | [] => t
  | b :: rest =>
    let (id, t) := plant t b
    plantForest (t.pushBack l id).2 l rest

end

/-! ### Ancestors -/

/-- The nodes around a node, from the inside out, as far as `fuel` reaches. -/
def ancestorsTo (t : Tree α) : Nat → NodeId → List NodeId
  | 0, _ => []
  | fuel + 1, id =>
    match t.parent? id with
    | some p => p :: ancestorsTo t fuel p
    | none => []

/-- The nodes around a node, from its parent outward. There are no more than nodes were ever
made. -/
def ancestors (t : Tree α) (id : NodeId) : List NodeId := t.ancestorsTo t.links.nodes.nextKey id

end Tree

end Toolpath
