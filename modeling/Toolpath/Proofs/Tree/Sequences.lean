import Toolpath.Tree.Basic

/-!
# Trees as sequences

A caller of the operations on places thinks of a list as a sequence of nodes and of a tree as a map
from lists to sequences. `Sequences` is that picture, and `Sequences.Step` says what an operation
does to it, in terms of lists and without a link anywhere. The result is that the picture is right:
a tree does what the picture does, and where the picture has no step the tree answers so and stays
as it is.

The rules are written for a picture and not for a tree, so that they cannot depend on more than the
caller sees: the members of all lists, what is alive and what is locked. They do not say which list
a node is taken out of. `without` erases it everywhere, and in the picture of a tree it is in one
list at most.

## Main definitions

* `Move`, `Tree.move` — an operation on places, and what a tree does on it
* `Sequences`, `Sequences.Step` — the picture, and its steps
* `Tree.Makes` — an operation does what a move asks for

## Main results

* `Tree.move_simulates_step` — a tree makes the steps of its picture, and no others
* `Tree.relinked_move` — a move links nodes in another way, and does nothing else
-/

namespace Toolpath

/-- An operation on places. -/
inductive Move where
  /-- Put a node behind the head of a list. -/
  | insert (l : ListId) (id : NodeId)
  /-- Put a node at the tail of a list. -/
  | pushBack (l : ListId) (id : NodeId)
  /-- Put a node behind another one. -/
  | insertAfter (anchor id : NodeId)
  /-- Take a node out of its list. -/
  | splice (id : NodeId)
  /-- Exchange a node with the one before it. -/
  | towardHead (id : NodeId)
  /-- Exchange a node with the one behind it. -/
  | towardTail (id : NodeId)
deriving DecidableEq, Repr

/-- What a caller sees of the places in a tree. -/
structure Sequences where
  /-- The members of every list. -/
  rows : ListId → List NodeId
  /-- The nodes that are alive. -/
  node : NodeId → Bool
  /-- The lists that are alive. -/
  list : ListId → Bool
  /-- The nodes that refuse to be exchanged. -/
  locked : NodeId → Bool

namespace Sequences

open Links (put without)

/-- What an operation does to sequences. -/
inductive Step (v : Sequences) : Move → Sequences → Prop where
  /-- The node goes behind the head: `[]` becomes `[id]` and `h :: t` becomes `h :: id :: t`, where
  `t` has lost the node. A head stays. -/
  | insert {l id} (hid : v.node id) (hl : v.list l) :
    Step v (.insert l id)
      { v with rows := put (without v.rows id) l (Row.behindHead id (v.rows l)) }
  /-- The node goes to the end of what is left without it. A tail stays. -/
  | pushBack {l id} (hid : v.node id) (hl : v.list l) :
    Step v (.pushBack l id) { v with rows := put (without v.rows id) l (Row.atTail id (v.rows l)) }
  /-- The node is erased and put directly behind the anchor. -/
  | insertAfter {l anchor id} (hne : anchor ≠ id) (hid : v.node id) (ha : anchor ∈ v.rows l) :
    Step v (.insertAfter anchor id)
      { v with
        rows := put (without v.rows id) l (Row.insertBehind anchor id ((v.rows l).erase id)) }
  /-- The node is erased. -/
  | splice {l id} (hid : id ∈ v.rows l) : Step v (.splice id) { v with rows := without v.rows id }
  /-- The node and the one before it are exchanged. -/
  | towardHead {l id p} (hp : Row.before id (v.rows l) = some p) (hlp : v.locked p = false)
    (hlid : v.locked id = false) :
    Step v (.towardHead id) { v with rows := put v.rows l (Row.exchange p id (v.rows l)) }
  /-- The node and the one behind it are exchanged. -/
  | towardTail {l id n} (hn : Row.after id (v.rows l) = some n) (hlid : v.locked id = false)
    (hln : v.locked n = false) :
    Step v (.towardTail id) { v with rows := put v.rows l (Row.exchange id n (v.rows l)) }

end Sequences

namespace Tree

variable {α : Type}

theorem childLists_of_relinked {t u : Tree α} (h : t.links.Relinked u.links) (id : NodeId) :
    u.childLists id = t.childLists id := by
  have := congrArg (Option.map Prod.snd) (h.node id)
  simp only [Option.map_map, Function.comp_def] at this
  simp only [childLists, node?, this]

theorem owner?_of_relinked {t u : Tree α} (h : t.links.Relinked u.links) (l : ListId) :
    u.owner? l = t.owner? l := by
  have hjoin (r : Option Siblings) : r.bind (·.owner) = (r.map (·.owner)).join := by
    cases r <;> rfl
  simp only [owner?, list?, hjoin, h.list l]

variable [Lockable α] {t : Tree α}

/-- What an operation on places does to a tree, and whether it did anything. -/
def move (t : Tree α) : Move → Bool × Tree α
  | .insert l id => t.insert l id
  | .pushBack l id => t.pushBack l id
  | .insertAfter anchor id => t.insertAfter anchor id
  | .splice id => t.splice id
  | .towardHead id => t.moveTowardHead id
  | .towardTail id => t.moveTowardTail id

/-- The picture of a tree. -/
def sequences (t : Tree α) : Sequences where
  rows := t.members
  node := t.contains
  list := fun l => (t.list? l).isSome
  locked := t.isLocked

theorem sequences_of_rearranged {u : Tree α} {rows : ListId → List NodeId}
    (h : t.links.Rearranged u.links rows) : u.sequences = { t.sequences with rows := rows } := by
  have hget : u.links.get? = t.links.get? := funext h.relinked.get?
  have hlocked : u.isLocked = t.isLocked := by
    funext id
    simp only [isLocked, Links.isLocked, hget]
  have hnode : u.contains = t.contains := funext h.relinked.contains
  have hlist : (fun l => (u.list? l).isSome) = fun l => (t.list? l).isSome :=
    funext h.relinked.isSome_list?
  have hrows : u.members = rows := h.members
  simp only [sequences, hrows, hnode, hlist, hlocked]

/-! ### Done or refused -/

/-- The picture makes a step and the tree makes it too, or the picture has none and the tree stays
as it is. Items, owners and the lists of every node stay in any case. -/
structure Simulates (t : Tree α) (m : Move) (r : Bool × Tree α) : Prop where
  /-- A tree that answers yes made the only step that its picture has. -/
  done : r.1 = true → ∀ v, t.sequences.Step m v ↔ v = r.2.sequences
  /-- A tree that answers no had nothing to do, and did nothing. -/
  refused : r.1 = false → r.2 = t ∧ ∀ v, ¬ t.sequences.Step m v
  /-- Every node has the item that it had. -/
  item : ∀ id, r.2.get? id = t.get? id
  /-- Every node has the lists that it had. -/
  childLists : ∀ id, r.2.childLists id = t.childLists id
  /-- The same lists are alive. -/
  list : ∀ l, (r.2.list? l).isSome = (t.list? l).isSome
  /-- Every list has the owner that it had. -/
  owner : ∀ l, r.2.owner? l = t.owner? l

/-- The picture of a tree never has two steps to choose from: a node is in one list at most. -/
theorem step_unique {m : Move} {v v' : Sequences} (h : t.sequences.Step m v)
    (h' : t.sequences.Step m v') : v = v' := by
  have hone {l k : ListId} {x : NodeId} (hl : x ∈ t.sequences.rows l)
      (hk : x ∈ t.sequences.rows k) : l = k := t.sound.holds.eq_of_mem hl hk
  cases h with
  | insert => cases h'; rfl
  | pushBack => cases h'; rfl
  | splice => cases h'; rfl
  | insertAfter hne hid ha =>
    cases h' with
    | insertAfter _ _ ha' =>
      obtain rfl := hone ha ha'
      rfl
  | @towardHead l id p hp =>
    cases h' with
    | @towardHead k _ q hq =>
      have hd (l : ListId) : (t.sequences.rows l).Nodup := t.sound.holds.nodup l
      obtain rfl := hone (Row.mem_of_before (hd l) hp).1 (Row.mem_of_before (hd k) hq).1
      obtain rfl := Option.some.inj (hp.symm.trans hq)
      rfl
  | towardTail hn =>
    cases h' with
    | towardTail hn' =>
      obtain rfl := hone (Row.mem_of_after hn).1 (Row.mem_of_after hn').1
      obtain rfl := Option.some.inj (hn.symm.trans hn')
      rfl

theorem simulates_of_done {m : Move} {r : Except Fault (Bool × Links α)} (hr : Links.Settles r)
    {rows : ListId → List NodeId} (hstep : t.sequences.Step m { t.sequences with rows := rows })
    (h : ∃ s', r = .ok (true, s') ∧ t.links.Rearranged s' rows) : t.Simulates m (settle r hr) := by
  obtain ⟨s', hs', harr⟩ := h
  obtain ⟨hdone, hlinks⟩ := settle_eq hr hs'
  have harr : t.links.Rearranged (settle r hr).2.links rows := hlinks ▸ harr
  refine ⟨fun _ v => ?_, fun hno => ?_, harr.relinked.get?, childLists_of_relinked harr.relinked,
    harr.relinked.isSome_list?, owner?_of_relinked harr.relinked⟩
  · rw [sequences_of_rearranged harr]
    exact ⟨fun hv => step_unique hv hstep, fun hv => hv ▸ hstep⟩
  · rw [hdone] at hno
    cases hno

theorem simulates_of_refused {m : Move} {r : Except Fault (Bool × Links α)} (hr : Links.Settles r)
    (hno : ∀ v, ¬ t.sequences.Step m v) (h : r = .ok (false, t.links)) :
    t.Simulates m (settle r hr) := by
  obtain ⟨hdone, hlinks⟩ := settle_eq hr h
  have hsame : (settle r hr).2 = t := Tree.ext hlinks
  refine ⟨fun hyes => ?_, fun _ => ⟨hsame, hno⟩, ?_, ?_, ?_, ?_⟩
  · rw [hdone] at hyes
    cases hyes
  all_goals
    intro
    rw [hsame]

/-- A result of an operation does what a move asks for. -/
inductive Makes (t : Tree α) (m : Move) (r : Except Fault (Bool × Links α)) : Prop where
  /-- Nothing, where the picture has no step. -/
  | refused (hno : ∀ v, ¬ t.sequences.Step m v) (h : r = .ok (false, t.links)) : Makes t m r
  /-- A step of the picture. -/
  | done {rows : ListId → List NodeId}
    (hstep : t.sequences.Step m { t.sequences with rows := rows })
    (h : ∃ s', r = .ok (true, s') ∧ t.links.Rearranged s' rows) : Makes t m r

theorem simulates_of_makes {m : Move} {r : Except Fault (Bool × Links α)} (hr : Links.Settles r)
    (h : t.Makes m r) : t.Simulates m (settle r hr) := by
  cases h with
  | refused hno h => exact simulates_of_refused hr hno h
  | done hstep h => exact simulates_of_done hr hstep h

theorem relinked_of_makes {m : Move} {r : Except Fault (Bool × Links α)} (hr : Links.Settles r)
    (h : t.Makes m r) : t.links.Relinked (settle r hr).2.links := by
  cases h with
  | refused hno h => exact (settle_eq hr h).2 ▸ .refl _
  | done hstep h =>
    obtain ⟨s', hs', harr⟩ := h
    exact (settle_eq hr hs').2 ▸ harr.relinked

/-! ### The operations -/

theorem placeable_iff {l : ListId} {id : NodeId} :
    t.sequences.node id = true ∧ t.sequences.list l = true ↔
      ¬ (t.links.contains id = false ∨ t.links.list? l = none) := by
  rw [not_or, Bool.not_eq_false, ← ne_eq, ← Option.isSome_iff_ne_none]
  rfl

theorem makes_insert (t : Tree α) (l : ListId) (id : NodeId) :
    t.Makes (.insert l id) (t.links.insert l id) := by
  by_cases hgo : t.links.contains id = false ∨ t.links.list? l = none
  · refine .refused (fun v hv => ?_) (Links.insert_of_refused hgo)
    cases hv with
    | insert hid hl => exact placeable_iff.mp ⟨hid, hl⟩ hgo
  · obtain ⟨hid, hl⟩ := placeable_iff.mpr hgo
    exact .done (.insert hid hl) (t.sound.insert hid hl)

theorem makes_pushBack (t : Tree α) (l : ListId) (id : NodeId) :
    t.Makes (.pushBack l id) (t.links.pushBack l id) := by
  by_cases hgo : t.links.contains id = false ∨ t.links.list? l = none
  · refine .refused (fun v hv => ?_) (Links.pushBack_of_refused hgo)
    cases hv with
    | pushBack hid hl => exact placeable_iff.mp ⟨hid, hl⟩ hgo
  · obtain ⟨hid, hl⟩ := placeable_iff.mpr hgo
    exact .done (.pushBack hid hl) (t.sound.pushBack hid hl)

theorem makes_insertAfter (t : Tree α) (anchor id : NodeId) :
    t.Makes (.insertAfter anchor id) (t.links.insertAfter anchor id) := by
  by_cases hgo : anchor = id ∨ t.links.contains id = false ∨ t.links.listOf? anchor = none
  · refine .refused (fun v hv => ?_) (Links.insertAfter_of_refused hgo)
    cases hv with
    | insertAfter hne hid ha =>
      have hl := t.sound.holds.listOf?_eq_some_iff.mpr ha
      rcases hgo with h | h | h
      · exact hne h
      · rw [show t.links.contains id = true from hid] at h
        cases h
      · rw [hl] at h
        cases h
  · obtain ⟨hne, hid, ha⟩ := by simpa only [not_or] using hgo
    obtain ⟨l, hl⟩ := Option.ne_none_iff_exists'.mp ha
    have hid : t.links.contains id = true := by simpa using hid
    exact .done (.insertAfter hne hid (t.sound.holds.listOf?_eq_some_iff.mp hl))
      (t.sound.insertAfter hne hid hl)

theorem makes_splice (t : Tree α) (id : NodeId) : t.Makes (.splice id) (t.links.splice id) := by
  cases hl : t.links.listOf? id with
  | none =>
    refine .refused (fun v hv => ?_) (Links.splice_of_loose hl)
    cases hv with
    | splice hid => exact t.sound.holds.not_mem_of_listOf? hl _ hid
  | some l =>
    have hdone := t.sound.splice id
    rw [hl] at hdone
    exact .done (.splice (t.sound.holds.listOf?_eq_some_iff.mp hl)) hdone

theorem makes_moveTowardHead (t : Tree α) (id : NodeId) :
    t.Makes (.towardHead id) (t.links.moveTowardHead id) := by
  have hneighbour {l : ListId} {p : NodeId} : Row.before id (t.members l) = some p ↔
      Row.after p (t.members l) = some id := Row.before_eq_some_iff (t.sound.holds.nodup l)
  cases hp : t.links.prev? id with
  | none =>
    refine .refused (fun v hv => ?_) (by rw [Links.moveTowardHead, hp])
    cases hv with
    | towardHead hbefore _ _ =>
      have := t.sound.holds.prev?_eq_some_iff.mpr ⟨_, hneighbour.mp hbefore⟩
      rw [hp] at this
      cases this
  | some p =>
    obtain ⟨l, hl⟩ := t.sound.holds.prev?_eq_some_iff.mp hp
    cases hfree : t.links.isLocked p || t.links.isLocked id with
    | true =>
      refine .refused (fun v hv => ?_)
        (by rw [Links.moveTowardHead, hp]; exact Links.swap_of_locked hfree)
      cases hv with
      | towardHead hbefore hlp hlid =>
        have hp' := t.sound.holds.prev?_eq_some_iff.mpr ⟨_, hneighbour.mp hbefore⟩
        obtain rfl := Option.some.inj (hp.symm.trans hp')
        rw [show t.links.isLocked p = false from hlp,
          show t.links.isLocked id = false from hlid] at hfree
        cases hfree
    | false =>
      obtain ⟨hlp, hlid⟩ := Bool.or_eq_false_iff.mp hfree
      refine .done (.towardHead (hneighbour.mpr hl) hlp hlid) ?_
      rw [Links.moveTowardHead, hp]
      exact t.sound.swap hl hfree

theorem makes_moveTowardTail (t : Tree α) (id : NodeId) :
    t.Makes (.towardTail id) (t.links.moveTowardTail id) := by
  cases hn : t.links.next? id with
  | none =>
    refine .refused (fun v hv => ?_) (by rw [Links.moveTowardTail, hn])
    cases hv with
    | towardTail hafter _ _ =>
      have := t.sound.holds.next?_eq_some_iff.mpr ⟨_, hafter⟩
      rw [hn] at this
      cases this
  | some n =>
    obtain ⟨l, hl⟩ := t.sound.holds.next?_eq_some_iff.mp hn
    cases hfree : t.links.isLocked id || t.links.isLocked n with
    | true =>
      refine .refused (fun v hv => ?_)
        (by rw [Links.moveTowardTail, hn]; exact Links.swap_of_locked hfree)
      cases hv with
      | towardTail hafter hlid hln =>
        have hn' := t.sound.holds.next?_eq_some_iff.mpr ⟨_, hafter⟩
        obtain rfl := Option.some.inj (hn.symm.trans hn')
        rw [show t.links.isLocked id = false from hlid,
          show t.links.isLocked n = false from hln] at hfree
        cases hfree
    | false =>
      obtain ⟨hlid, hln⟩ := Bool.or_eq_false_iff.mp hfree
      refine .done (.towardTail hl hlid hln) ?_
      rw [Links.moveTowardTail, hn]
      exact t.sound.swap hl hfree

theorem simulates_insert (t : Tree α) (l : ListId) (id : NodeId) :
    t.Simulates (.insert l id) (t.insert l id) := simulates_of_makes _ (t.makes_insert l id)

theorem simulates_pushBack (t : Tree α) (l : ListId) (id : NodeId) :
    t.Simulates (.pushBack l id) (t.pushBack l id) := simulates_of_makes _ (t.makes_pushBack l id)

theorem simulates_insertAfter (t : Tree α) (anchor id : NodeId) :
    t.Simulates (.insertAfter anchor id) (t.insertAfter anchor id) :=
  simulates_of_makes _ (t.makes_insertAfter anchor id)

theorem simulates_splice (t : Tree α) (id : NodeId) : t.Simulates (.splice id) (t.splice id) :=
  simulates_of_makes _ (t.makes_splice id)

theorem simulates_moveTowardHead (t : Tree α) (id : NodeId) :
    t.Simulates (.towardHead id) (t.moveTowardHead id) :=
  simulates_of_makes _ (t.makes_moveTowardHead id)

theorem simulates_moveTowardTail (t : Tree α) (id : NodeId) :
    t.Simulates (.towardTail id) (t.moveTowardTail id) :=
  simulates_of_makes _ (t.makes_moveTowardTail id)

/-- **A tree makes the steps of its picture, and no others.** -/
theorem move_simulates_step (t : Tree α) (m : Move) : t.Simulates m (t.move m) := by
  cases m with
  | insert l id => exact t.simulates_insert l id
  | pushBack l id => exact t.simulates_pushBack l id
  | insertAfter anchor id => exact t.simulates_insertAfter anchor id
  | splice id => exact t.simulates_splice id
  | towardHead id => exact t.simulates_moveTowardHead id
  | towardTail id => exact t.simulates_moveTowardTail id

/-- A move links nodes in another way, and does nothing else. -/
theorem relinked_move (t : Tree α) (m : Move) : t.links.Relinked (t.move m).2.links := by
  cases m with
  | insert l id => exact relinked_of_makes _ (t.makes_insert l id)
  | pushBack l id => exact relinked_of_makes _ (t.makes_pushBack l id)
  | insertAfter anchor id => exact relinked_of_makes _ (t.makes_insertAfter anchor id)
  | splice id => exact relinked_of_makes _ (t.makes_splice id)
  | towardHead id => exact relinked_of_makes _ (t.makes_moveTowardHead id)
  | towardTail id => exact relinked_of_makes _ (t.makes_moveTowardTail id)

end Tree

end Toolpath
