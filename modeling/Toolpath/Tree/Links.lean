import Toolpath.Tree.Arena
import Toolpath.Tree.Row

/-!
# Linked nodes

Nodes are kept in one store and lists in another. A node knows its two neighbours and the list it
is in; a list knows its two ends, its owner and its length. So every operation on places changes a
few links and walks nowhere, except where it destroys or copies what is below a node.

## Following a link

A link names a node or a list, and what it names may be gone. Most operations begin by looking
whether what they are given is alive and refuse if it is not; past that point they follow links
that are there, and a link that led to something gone would stop them half way. That is a `Fault`.
The operations here can therefore fail in two ways that must not be confused: they *refuse*, which
is an answer, or they *fault*, which in a store that is in order they never do.

`Links` says nothing about order: it can hold any links at all. When it is in order is said by
`Links.Holds` and `Links.Sound`, and every operation is shown to keep it so and not to fault.
-/

namespace Toolpath

/-- The name of a node. -/
structure NodeId where
  /-- The key in the store of nodes. -/
  key : Nat
deriving DecidableEq, Repr, Inhabited

/-- The name of a list. -/
structure ListId where
  /-- The key in the store of lists. -/
  key : Nat
deriving DecidableEq, Repr, Inhabited

/-- Items that can refuse to be removed or reordered. -/
class Lockable (α : Type) where
  /-- Whether the item refuses. -/
  locked : α → Bool

/-- A stored item with its place. -/
structure TreeNode (α : Type) where
  /-- The item. -/
  item : α
  /-- The sibling before it. -/
  prev : Option NodeId := none
  /-- The sibling behind it. -/
  next : Option NodeId := none
  /-- The list that holds the node. -/
  list : Option ListId := none
  /-- The lists that the node owns, in the order of their creation. -/
  lists : List ListId := []
deriving Repr

/-- A list of siblings. -/
structure Siblings where
  /-- The first sibling. -/
  head : Option NodeId := none
  /-- The last sibling. -/
  tail : Option NodeId := none
  /-- The node whose children the siblings are. -/
  owner : Option NodeId := none
  /-- The number of siblings. -/
  length : Nat := 0
deriving Repr

/-- What would stop an operation half way. -/
inductive Fault where
  /-- A link leads to a node that is gone. -/
  | deadNode (id : NodeId)
  /-- A link leads to a list that is gone. -/
  | deadList (l : ListId)
  /-- The way down from a node does not end. -/
  | endless
deriving DecidableEq, Repr

/-- Nodes and lists with the links between them. -/
structure Links (α : Type) where
  /-- The nodes. -/
  nodes : Arena (TreeNode α)
  /-- The lists. -/
  siblings : Arena Siblings
deriving Repr

namespace Links

variable {α : Type}

/-- No nodes and no lists. -/
def empty : Links α := ⟨Arena.empty, Arena.empty⟩

/-! ### What is stored -/

/-- A node with its place. -/
def node? (s : Links α) (id : NodeId) : Option (TreeNode α) := s.nodes.get? id.key

/-- A list, if it is alive. -/
def list? (s : Links α) (l : ListId) : Option Siblings := s.siblings.get? l.key

/-- Whether a node is alive. -/
def contains (s : Links α) (id : NodeId) : Bool := (s.node? id).isSome

/-- The item of a node. -/
def get? (s : Links α) (id : NodeId) : Option α := (s.node? id).map (·.item)

/-- The number of nodes alive, in a list or not. -/
def size (s : Links α) : Nat := s.nodes.size

/-- The first node of a list. -/
def head? (s : Links α) (l : ListId) : Option NodeId := (s.list? l).bind (·.head)

/-- The last node of a list. -/
def tail? (s : Links α) (l : ListId) : Option NodeId := (s.list? l).bind (·.tail)

/-- The sibling directly before a node. -/
def prev? (s : Links α) (id : NodeId) : Option NodeId := (s.node? id).bind (·.prev)

/-- The sibling directly behind a node. -/
def next? (s : Links α) (id : NodeId) : Option NodeId := (s.node? id).bind (·.next)

/-- The list that holds a node. -/
def listOf? (s : Links α) (id : NodeId) : Option ListId := (s.node? id).bind (·.list)

/-- Whether a node is alive and its item refuses removal and reordering. -/
def isLocked [Lockable α] (s : Links α) (id : NodeId) : Bool :=
  ((s.get? id).map Lockable.locked).getD false

/-! ### Walking a list -/

/-- The nodes met from a cursor on, following the links ahead, at most `fuel` of them. -/
def walk (s : Links α) : Nat → Option NodeId → List NodeId
  | 0, _ => []
  | _ + 1, none => []
  | fuel + 1, some id => id :: walk s fuel (s.next? id)

/-- The siblings in a list, from its head on. A chain has no more nodes than were ever made. -/
def members (s : Links α) (l : ListId) : List NodeId := s.walk s.nodes.nextKey (s.head? l)

/-- The last node of the chain from `cursor` on, or `prev` where there is none, and the number of
nodes in it. Nothing, if a node is gone or in another list, if a link back does not lead to where
the walk came from, or if more than `left` nodes follow. -/
def chainEnd? (s : Links α) (l : ListId) :
    Nat → Option NodeId → Option NodeId → Option (Option NodeId × Nat)
  | _, prev, none => some (prev, 0)
  | 0, _, some _ => none
  | left + 1, prev, some id =>
    match s.node? id with
    | none => none
    | some n =>
      if n.prev = prev ∧ n.list = some l then
        (s.chainEnd? l left (some id) n.next).map fun (last, count) => (last, count + 1)
      else none

/-- Whether a list is alive and its chain is sound: no cycle, open ends, links back that fit, every
member in this list, and as many of them as the list counts. -/
def validate (s : Links α) (l : ListId) : Bool :=
  match s.list? l with
  | none => false
  | some r => decide (s.chainEnd? l s.size none r.head = some (r.tail, r.length))

/-! ### Changing one entry -/

/-- A node changed, if it is alive. -/
def withNode (s : Links α) (id : NodeId) (f : TreeNode α → TreeNode α) : Links α :=
  { s with nodes := s.nodes.modify id.key f }

/-- A list changed, if it is alive. -/
def withList (s : Links α) (l : ListId) (f : Siblings → Siblings) : Links α :=
  { s with siblings := s.siblings.modify l.key f }

/-- The node that a link leads to. -/
def nodeAt (s : Links α) (id : NodeId) : Except Fault (TreeNode α) :=
  match s.node? id with
  | some n => .ok n
  | none => .error (.deadNode id)

/-- The node that a link leads to, changed. -/
def editNode (s : Links α) (id : NodeId) (f : TreeNode α → TreeNode α) : Except Fault (Links α) :=
  match s.node? id with
  | some _ => .ok (s.withNode id f)
  | none => .error (.deadNode id)

/-- The list that a link leads to, changed. -/
def editList (s : Links α) (l : ListId) (f : Siblings → Siblings) : Except Fault (Links α) :=
  match s.list? l with
  | some _ => .ok (s.withList l f)
  | none => .error (.deadList l)

/-- The link ahead that leads to a place set to `v`: that of the node before it, or the head of the
list where there is no such node. -/
def linkNext (s : Links α) (l : ListId) (prev v : Option NodeId) : Except Fault (Links α) :=
  match prev with
  | some p => s.editNode p fun n => { n with next := v }
  | none => s.editList l fun r => { r with head := v }

/-- The link back that leads to a place set to `v`: that of the node behind it, or the tail of the
list where there is no such node. -/
def linkPrev (s : Links α) (l : ListId) (next v : Option NodeId) : Except Fault (Links α) :=
  match next with
  | some x => s.editNode x fun n => { n with prev := v }
  | none => s.editList l fun r => { r with tail := v }

/-! ### Making nodes and lists -/

/-- A further node outside every list. -/
def create (s : Links α) (item : α) : NodeId × Links α :=
  (⟨s.nodes.nextKey⟩, { s with nodes := s.nodes.push { item := item } })

/-- A further list without members. It is owned by `owner` if that node is alive. -/
def newList (s : Links α) (owner : Option NodeId) : ListId × Links α :=
  let owner := owner.filter s.contains
  let l : ListId := ⟨s.siblings.nextKey⟩
  let s := { s with siblings := s.siblings.push { owner := owner } }
  match owner with
  | some o => (l, s.withNode o fun n => { n with lists := n.lists ++ [l] })
  | none => (l, s)

/-- The item of a node replaced. -/
def modify (s : Links α) (id : NodeId) (f : α → α) : Links α :=
  s.withNode id fun n => { n with item := f n.item }

/-! ### Moving nodes -/

/-- A node taken out of its list, and whether it was in one. -/
def splice (s : Links α) (id : NodeId) : Except Fault (Bool × Links α) :=
  match s.node? id with
  | none => .ok (false, s)
  | some n =>
    match n.list with
    | none => .ok (false, s)
    | some l => do
      let s ← s.editNode id fun n => { n with prev := none, next := none, list := none }
      let s ← s.linkNext l n.prev n.next
      let s ← s.linkPrev l n.next n.prev
      let s ← s.editList l fun r => { r with length := r.length - 1 }
      return (true, s)

/-- A node put directly behind another one, wherever it was before. Refused for a node that is not
alive, behind a node that is in no list, and behind itself. -/
def insertAfter (s : Links α) (anchor id : NodeId) : Except Fault (Bool × Links α) :=
  if anchor = id || !s.contains id then .ok (false, s)
  else
    match s.listOf? anchor with
    | none => .ok (false, s)
    | some l => do
      let (_, s) ← s.splice id
      let next := (← s.nodeAt anchor).next
      let s ← s.editNode id fun n => { n with prev := some anchor, next, list := some l }
      let s ← s.editNode anchor fun n => { n with next := some id }
      let s ← s.linkPrev l next (some id)
      let s ← s.editList l fun r => { r with length := r.length + 1 }
      return (true, s)

/-- A node made the only member of a list without members, wherever it was before. -/
def insertAlone (s : Links α) (l : ListId) (id : NodeId) : Except Fault (Bool × Links α) := do
  let (_, s) ← s.splice id
  let s ← s.editNode id fun n => { n with prev := none, next := none, list := some l }
  let s ← s.editList l fun r => { r with head := some id, tail := some id, length := 1 }
  return (true, s)

/-- A node put directly behind the head of a list; into an empty list it goes as the head. A head
stays where it is. Refused if the node or the list is not alive. -/
def insert (s : Links α) (l : ListId) (id : NodeId) : Except Fault (Bool × Links α) :=
  if !s.contains id || (s.list? l).isNone then .ok (false, s)
  else
    match s.head? l with
    | none => s.insertAlone l id
    | some h => if h = id then .ok (true, s) else s.insertAfter h id

/-- A node put at the tail of a list. A tail stays where it is. Refused if the node or the list is
not alive. -/
def pushBack (s : Links α) (l : ListId) (id : NodeId) : Except Fault (Bool × Links α) :=
  if !s.contains id || (s.list? l).isNone then .ok (false, s)
  else
    match s.tail? l with
    | none => s.insertAlone l id
    | some last => if last = id then .ok (true, s) else s.insertAfter last id

/-- Two neighbours exchanged, `b` being the one behind `a`. Refused if one of them is locked. -/
def swap [Lockable α] (s : Links α) (a b : NodeId) : Except Fault (Bool × Links α) :=
  if s.isLocked a || s.isLocked b then .ok (false, s)
  else
    match s.listOf? a with
    | none => .ok (false, s)
    | some l => do
      let before := (← s.nodeAt a).prev
      let behind := (← s.nodeAt b).next
      let s ← s.linkNext l before (some b)
      let s ← s.linkPrev l behind (some a)
      let s ← s.editNode b fun n => { n with prev := before, next := some a }
      let s ← s.editNode a fun n => { n with prev := some b, next := behind }
      return (true, s)

/-- A node exchanged with the sibling before it. Refused at the head and if one of the two is
locked. -/
def moveTowardHead [Lockable α] (s : Links α) (id : NodeId) : Except Fault (Bool × Links α) :=
  match s.prev? id with
  | none => .ok (false, s)
  | some p => s.swap p id

/-- A node exchanged with the sibling behind it. Refused at the tail and if one of the two is
locked. -/
def moveTowardTail [Lockable α] (s : Links α) (id : NodeId) : Except Fault (Bool × Links α) :=
  match s.next? id with
  | none => .ok (false, s)
  | some n => s.swap id n

/-! ### Destroying -/

/-- A node erased from the store. -/
def eraseNode (s : Links α) (id : NodeId) : Links α := { s with nodes := s.nodes.erase id.key }

/-- A list erased from the store. -/
def eraseList (s : Links α) (l : ListId) : Links α := { s with siblings := s.siblings.erase l.key }

mutual

/-- A node taken out of its list and erased, then its lists with everything in them. -/
def destroyTo : Nat → Links α → NodeId → Except Fault (Links α)
  | 0, _, _ => .error .endless
  | fuel + 1, s, id => do
    let (_, s) ← s.splice id
    match s.node? id with
    | none => return s
    | some n =>
      n.lists.foldlM (fun s l => do return (← emptyTo fuel s l).eraseList l) (s.eraseNode id)

/-- The head of a list destroyed until none is left. -/
def emptyTo : Nat → Links α → ListId → Except Fault (Links α)
  | 0, _, _ => .error .endless
  | fuel + 1, s, l =>
    match s.head? l with
    | none => .ok s
    | some h => do emptyTo fuel (← destroyTo fuel s h) l

end

/-- A node removed with everything below it, and its item. Refused if it is locked or gone. The fuel
allows two steps for every node alive: one that destroys it and one that empties its lists. -/
def remove [Lockable α] (s : Links α) (id : NodeId) : Except Fault (Option α × Links α) :=
  if s.isLocked id then .ok (none, s)
  else return (s.get? id, ← s.destroyTo (2 * s.size + 1) id)

/-- Every node of a list destroyed with everything below it, locked or not. -/
def destroyList (s : Links α) (l : ListId) : Except Fault (Links α) := s.emptyTo (2 * s.size + 1) l

/-! ### Copying -/

/-- A member of a list copied by `copy` and put at the tail of another list. -/
def copyMember (copy : Links α → NodeId → Except Fault (Option NodeId × Links α)) (into : ListId)
    (s : Links α) (child : NodeId) : Except Fault (Links α) := do
  let (c, s) ← copy s child
  match c with
  | none => return s
  | some c => return (← s.pushBack into c).2

/-- A list with its members copied, the copy owned by `owner`. -/
def copyList (copy : Links α → NodeId → Except Fault (Option NodeId × Links α)) (owner : NodeId)
    (s : Links α) (l : ListId) : Except Fault (Links α) :=
  let (into, s) := s.newList (some owner)
  (s.members l).foldlM (copyMember copy into) s

/-- A node copied with everything below it, at most `fuel` levels. -/
def duplicateTo (f : α → α) : Nat → Links α → NodeId → Except Fault (Option NodeId × Links α)
  | 0, _, _ => .error .endless
  | fuel + 1, s, id =>
    match s.node? id with
    | none => .ok (none, s)
    | some n => do
      let (copy, s) := s.create (f n.item)
      let n ← s.nodeAt id
      let s ← n.lists.foldlM (copyList (duplicateTo f fuel) copy) s
      return (some copy, s)

/-- A copy of a node and everything below it with `f` applied to every item, outside every list.
There are no more levels than nodes were ever made, unless the node is below itself. -/
def duplicateWith (s : Links α) (id : NodeId) (f : α → α) :
    Except Fault (Option NodeId × Links α) :=
  s.duplicateTo f (s.nodes.nextKey + 1) id

end Links

end Toolpath
