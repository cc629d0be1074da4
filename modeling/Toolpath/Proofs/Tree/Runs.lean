import Toolpath.Proofs.Tree.Levels

/-!
# Runs of calls

Whatever is called on a store that starts empty, in whatever order and with whatever names, the
store stays in order and no call follows a link to something that is gone. Names may be of things
that were never made, are gone or are somewhere else; nodes may be put below themselves.

There is one call that such a store cannot answer. A node that is below itself has no copy, since
the copy would never end. A run is *careful* if it copies no such node. That a node further down may
be below itself is no separate case: then the node that is copied is, too (`Levels`).

## Main definitions

* `Call`, `Links.perform`, `Links.run` — calls, and runs of them
* `Links.Careful` — no node is copied that is below itself
* `Links.Consistent` — what holds of every store that a run can reach

## Main results

* `Links.Sound.perform` — a call keeps the order
* `Links.run_consistent` — a careful run ends, and ends consistent
-/

namespace Toolpath

/-- A call on a store. -/
inductive Call (α : Type) where
  /-- Make a list. -/
  | newList (owner : Option NodeId)
  /-- Make a node. -/
  | create (item : α)
  /-- Put a node behind the head of a list. -/
  | insert (l : ListId) (id : NodeId)
  /-- Put a node at the tail of a list. -/
  | pushBack (l : ListId) (id : NodeId)
  /-- Put a node behind another one. -/
  | insertAfter (anchor id : NodeId)
  /-- Take a node out of its list. -/
  | splice (id : NodeId)
  /-- Exchange a node with the one before it. -/
  | moveTowardHead (id : NodeId)
  /-- Exchange a node with the one behind it. -/
  | moveTowardTail (id : NodeId)
  /-- Remove a node with everything below it. -/
  | remove (id : NodeId)
  /-- Destroy the nodes in a list. -/
  | destroyList (l : ListId)
  /-- Copy a node with everything below it. -/
  | duplicateWith (id : NodeId) (f : α → α)
  /-- Edit the item of a node. -/
  | modify (id : NodeId) (f : α → α)

/-- Whether the call makes a copy. -/
def Call.isCopy {α : Type} : Call α → Bool
  | .duplicateWith _ _ => true
  | _ => false

/-- An item that is nothing but its lock. -/
instance : Lockable Bool := ⟨id⟩

namespace Links

variable {α : Type}

/-! ### What a reachable store is like -/

/-- The chains of a store fit its entries, and lists fit their owners. -/
structure Consistent (s : Links α) : Prop where
  /-- A list that is alive passes its own check. -/
  validate : ∀ l, (s.list? l).isSome → s.validate l = true
  /-- A list knows the ends and the length of its chain. -/
  ends : ∀ l r, s.list? l = some r → Ends (s.members l) r
  /-- In a chain each node is linked with the one behind it, both ways, and the ends are open. -/
  fits : ∀ id n, s.node? id = some n → Fits s.members id n
  /-- The list of a node is the one in whose chain it occurs. -/
  list : ∀ id l, s.contains id → (s.listOf? id = some l ↔ id ∈ s.members l)
  /-- A node occurs once, and in no other chain. -/
  once : ∀ id l, id ∈ s.members l →
    (s.members l).count id = 1 ∧ ∀ k, k ≠ l → id ∉ s.members k
  /-- Only what is alive is in a chain, and only lists that are alive have one. -/
  alive : ∀ id l, id ∈ s.members l → s.contains id ∧ (s.list? l).isSome
  /-- The owner of a list is the node that is alive and lists it once. -/
  owner : ∀ l o, (s.list? l).bind (·.owner) = some o ↔
    ∃ n, s.node? o = some n ∧ n.lists.count l = 1

theorem Sound.consistent {s : Links α} (h : s.Sound) : s.Consistent where
  validate := fun l hl => h.holds.validate_eq_true hl
  ends := h.holds.list
  fits := h.holds.node
  list := fun id l _ => h.holds.listOf?_eq_some_iff
  once := fun id l hid => by
    refine ⟨List.count_eq_one_of_mem (h.holds.nodup l) hid, fun k hk hid' => ?_⟩
    exact hk (h.holds.eq_of_mem hid' hid)
  alive := fun id l hid => h.holds.alive l id hid
  owner := fun l o => by
    rw [h.owner_eq_some_iff]
    constructor
    · rintro ⟨n, hn, hmem⟩
      exact ⟨n, hn, List.count_eq_one_of_mem (h.owned.nodup hn) hmem⟩
    · rintro ⟨n, hn, hcount⟩
      exact ⟨n, hn, List.count_pos_iff.mp (by omega)⟩

/-! ### Calls -/

/-- The call copies no node that is below itself. -/
def CarefulCall (s : Links α) : Call α → Prop
  | .duplicateWith id _ => ¬ s.BelowItself id
  | _ => True

theorem carefulCall_of_no_copy {s : Links α} {c : Call α} (hc : c.isCopy = false) :
    s.CarefulCall c := by
  cases c with
  | duplicateWith id f => cases hc
  | _ => trivial

variable [Lockable α]

/-- The store after a call. -/
def perform (s : Links α) : Call α → Except Fault (Links α)
  | .newList owner => .ok (s.newList owner).2
  | .create item => .ok (s.create item).2
  | .insert l id => (s.insert l id).map Prod.snd
  | .pushBack l id => (s.pushBack l id).map Prod.snd
  | .insertAfter anchor id => (s.insertAfter anchor id).map Prod.snd
  | .splice id => (s.splice id).map Prod.snd
  | .moveTowardHead id => (s.moveTowardHead id).map Prod.snd
  | .moveTowardTail id => (s.moveTowardTail id).map Prod.snd
  | .remove id => (s.remove id).map Prod.snd
  | .destroyList l => s.destroyList l
  | .duplicateWith id f => (s.duplicateWith id f).map Prod.snd
  | .modify id f => .ok (s.modify id f)

/-- The store after calls one after the other. -/
def run (s : Links α) : List (Call α) → Except Fault (Links α)
  | [] => .ok s
  | c :: cs => s.perform c >>= fun s => run s cs

/-- No call copies a node that is below itself in the store that the calls before it made. -/
def Careful (s : Links α) : List (Call α) → Prop
  | [] => True
  | c :: cs => s.CarefulCall c ∧ ∀ s', s.perform c = .ok s' → Careful s' cs

theorem careful_of_no_copy {s : Links α} {cs : List (Call α)} (h : ∀ c ∈ cs, c.isCopy = false) :
    s.Careful cs := by
  induction cs generalizing s with
  | nil => trivial
  | cons c cs ih =>
    refine ⟨carefulCall_of_no_copy (h c List.mem_cons_self), fun s' _ => ?_⟩
    exact ih fun c hc => h c (List.mem_cons_of_mem _ hc)

theorem careful_append {s : Links α} {cs ds : List (Call α)} (hcs : s.Careful cs)
    (hds : ∀ s', s.run cs = .ok s' → s'.Careful ds) : s.Careful (cs ++ ds) := by
  induction cs generalizing s with
  | nil => exact hds s rfl
  | cons c cs ih =>
    obtain ⟨hc, hrest⟩ := hcs
    refine ⟨hc, fun s₁ h₁ => ih (hrest s₁ h₁) fun s₂ h₂ => hds s₂ ?_⟩
    rw [run, h₁]
    exact h₂

/-! ### One call -/

/-- **A call keeps the order** and does not fault. -/
theorem Sound.perform {s : Links α} (h : s.Sound) {c : Call α} (hc : s.CarefulCall c) :
    ∃ s', s.perform c = .ok s' ∧ s'.Sound := by
  cases c with
  | newList owner => exact ⟨_, rfl, h.newList owner⟩
  | create item => exact ⟨_, rfl, h.create item⟩
  | insert l id => exact (h.settles_insert l id).map_snd
  | pushBack l id => exact (h.settles_pushBack l id).map_snd
  | insertAfter anchor id => exact (h.settles_insertAfter anchor id).map_snd
  | splice id => exact (h.settles_splice id).map_snd
  | moveTowardHead id => exact (h.settles_moveTowardHead id).map_snd
  | moveTowardTail id => exact (h.settles_moveTowardTail id).map_snd
  | remove id => exact (h.settles_remove id).map_snd
  | destroyList l =>
    obtain ⟨s', hs', hsound, -⟩ := h.destroyList l
    exact ⟨s', hs', hsound⟩
  | duplicateWith id f => exact (h.settles_duplicateWith hc f).map_snd
  | modify id f => exact ⟨_, rfl, h.modify id f⟩

theorem Sound.run {s : Links α} (h : s.Sound) {cs : List (Call α)} (hcs : s.Careful cs) :
    ∃ s', s.run cs = .ok s' ∧ s'.Sound := by
  induction cs generalizing s with
  | nil => exact ⟨s, rfl, h⟩
  | cons c cs ih =>
    obtain ⟨hc, hrest⟩ := hcs
    obtain ⟨s₁, hs₁, h₁⟩ := h.perform hc
    obtain ⟨s₂, hs₂, h₂⟩ := ih h₁ (hrest s₁ hs₁)
    exact ⟨s₂, by rw [Links.run, hs₁]; exact hs₂, h₂⟩

/-- **A careful run ends, and ends consistent.** -/
theorem run_consistent {cs : List (Call α)} (hcs : (empty : Links α).Careful cs) :
    ∃ s, (empty : Links α).run cs = .ok s ∧ s.Consistent := by
  obtain ⟨s, hs, hsound⟩ := sound_empty.run hcs
  exact ⟨s, hs, hsound.consistent⟩

/-- A node with a locked child is copied, then removed; the names in the last two calls are of
nothing and of the node that is gone. -/
theorem run_consistent_of_copied_parent :
    let calls : List (Call Bool) := [.create false, .newList (some ⟨0⟩), .create true,
      .pushBack ⟨0⟩ ⟨1⟩, .duplicateWith ⟨0⟩ not, .remove ⟨0⟩, .splice ⟨9⟩, .insertAfter ⟨0⟩ ⟨3⟩]
    (empty : Links Bool).Careful calls ∧
      ∃ s, (empty : Links Bool).run calls = .ok s ∧ s.Consistent := by
  intro calls
  have hbefore : (empty : Links Bool).Careful (calls.take 4) := careful_of_no_copy (by decide)
  have hcareful : (empty : Links Bool).Careful (calls.take 4 ++ calls.drop 4) := by
    refine careful_append hbefore fun s hs => ⟨?_, fun s' _ => careful_of_no_copy (by decide)⟩
    -- the parent is in no list when it is copied
    have hloose : ((empty : Links Bool).run (calls.take 4)).map (·.listOf? ⟨0⟩) = .ok none := rfl
    obtain ⟨s', hs', hsound⟩ := sound_empty.run hbefore
    obtain rfl := Except.ok.inj (hs'.symm.trans hs)
    rw [hs] at hloose
    exact hsound.not_belowItself_of_loose (Except.ok.inj hloose)
  exact ⟨hcareful, run_consistent hcareful⟩

end Links

end Toolpath
