import Toolpath.Proofs.Tree.Pruning
import Toolpath.Proofs.Tree.Runs

/-!
# What removing a node destroys

A node is destroyed with everything that is reached from it by going from a node to the members of
its lists, again and again, and nothing else is. The walk goes through a store that it empties on
its way: a node is gone before its lists are looked at. So it ends even where nodes are below
themselves, and what it destroys has to be told in the store before it.

Two halves meet here. While things are destroyed nothing is lost but what is below the node
(`Links.Loses`). And nothing that is below it can be left, since its list would be left, and a list
that is left has its owner.

## Main definitions

* `Tree.Felled` — the tree without a node and exactly what is below it

## Main results

* `Links.Shrinks.contains_iff`, `Shrinks.isSome_list?_iff` — what is left of nodes and lists
* `Links.destroyTo_of_le` — what destroying makes does not depend on the fuel
* `Tree.remove_fells` — what is removed, and what refuses to be
-/

namespace Toolpath

namespace Links

variable {α : Type} {s s' : Links α} {id x : NodeId}

/-! ### What is left -/

/-- Up by the owners that lists name is down by the lists that nodes know. -/
theorem Sound.under_iff (h : s.Sound) {P : NodeId → Prop} :
    s.Under P x ↔ ∃ top, P top ∧ ∃ levels, s.Descends levels top x := by
  constructor
  · intro hx
    induction hx with
    | @top x hx => exact ⟨x, hx, 0, rfl⟩
    | @member x o l r hx hr ho _ ih =>
      obtain ⟨top, htop, levels, hlevels⟩ := ih
      obtain ⟨n, hn, hl⟩ := h.owned.listed hr ho List.not_mem_nil
      exact ⟨top, htop, levels + 1, descends_add.mpr ⟨o, hlevels, x, ⟨n, l, hn, hl, hx⟩, rfl⟩⟩
  · rintro ⟨top, htop, levels, hlevels⟩
    induction levels generalizing x with
    | zero =>
      obtain rfl : top = x := hlevels
      exact .top htop
    | succ levels ih =>
      obtain ⟨o, ho, y, ⟨n, l, hn, hl, hy⟩, rfl⟩ := descends_add.mp hlevels
      obtain ⟨-, r, hr, hro⟩ := h.owned.owned hn hl
      exact .member hy hr hro (ih ho)

/-- **The nodes that are left** are those that are not below the one destroyed. -/
theorem Shrinks.contains_iff (h : s.Shrinks s') (hs : s.Sound) (hs' : s'.Sound)
    (hloses : s.Loses s' (· = id)) (hgone : s'.contains id = false) :
    s'.contains x ↔ s.contains x ∧ ∀ levels, ¬ s.Descends levels id x := by
  constructor
  · intro hx
    refine ⟨h.contains hx, fun levels hlevels => Bool.eq_false_iff.mp ?_ hx⟩
    exact h.gone_of_under hs' (fun y (hy : y = id) => hy.symm ▸ hgone)
      (hs.under_iff.mpr ⟨id, rfl, levels, hlevels⟩)
  · rintro ⟨hx, hnot⟩
    by_contra hleft
    obtain ⟨top, rfl, levels, hlevels⟩ :=
      hs.under_iff.mp (hloses x hx (Bool.eq_false_iff.mpr hleft))
    exact hnot levels hlevels

/-- **The lists that are left** are those whose owner is left, or that have none. -/
theorem Shrinks.isSome_list?_iff (h : s.Shrinks s') (hs : s.Sound) (hs' : s'.Sound) {l : ListId} :
    (s'.list? l).isSome ↔
      (s.list? l).isSome ∧ ∀ o, (s.list? l).bind (·.owner) = some o → s'.contains o := by
  constructor
  · intro hl
    obtain ⟨r', hr'⟩ := Option.isSome_iff_exists.mp hl
    obtain ⟨r, hr, howner⟩ := h.list hr'
    refine ⟨Option.isSome_iff_exists.mpr ⟨r, hr⟩, fun o ho => ?_⟩
    rw [hr, Option.bind_some, howner] at ho
    obtain ⟨n, hn, -⟩ := hs'.owned.listed hr' ho List.not_mem_nil
    exact Option.isSome_iff_exists.mpr ⟨n, hn⟩
  · rintro ⟨hl, howner⟩
    obtain ⟨r, hr⟩ := Option.isSome_iff_exists.mp hl
    cases ho : r.owner with
    | none =>
      obtain ⟨r', hr', -⟩ := h.free hr ho
      exact Option.isSome_iff_exists.mpr ⟨r', hr'⟩
    | some o =>
      -- the owner is left with the lists that it had
      obtain ⟨n', hn'⟩ :=
        Option.isSome_iff_exists.mp (howner o (Option.bind_eq_some_iff.mpr ⟨r, hr, ho⟩))
      obtain ⟨n, hn, -, hlists⟩ := h.node hn'
      obtain ⟨m, hm, hmem⟩ := hs.owned.listed hr ho List.not_mem_nil
      obtain rfl := Option.some.inj (hn.symm.trans hm)
      obtain ⟨-, r', hr', -⟩ := hs'.owned.owned hn' (hlists ▸ hmem)
      exact Option.isSome_iff_exists.mpr ⟨r', hr'⟩

/-! ### Fuel -/

theorem foldlM_ok_of_imp {β : Type} {step step' : Links α → β → Except Fault (Links α)}
    (hstep : ∀ s b s', step s b = .ok s' → step' s b = .ok s') {bs : List β}
    (h : bs.foldlM step s = .ok s') : bs.foldlM step' s = .ok s' := by
  induction bs generalizing s with
  | nil => exact h
  | cons b bs ih =>
    rw [List.foldlM_cons] at h ⊢
    obtain ⟨s₁, hs₁, hrest⟩ := bind_eq_ok.mp h
    exact bind_eq_ok.mpr ⟨s₁, hstep s b s₁ hs₁, ih hrest⟩

theorem destroyTo_and_emptyTo_of_le {fuel fuel' : Nat} (hle : fuel ≤ fuel') :
    (∀ (s s' : Links α) id, s.destroyTo fuel id = .ok s' → s.destroyTo fuel' id = .ok s') ∧
      ∀ (s s' : Links α) l, s.emptyTo fuel l = .ok s' → s.emptyTo fuel' l = .ok s' := by
  induction fuel generalizing fuel' with
  | zero => exact ⟨nofun, nofun⟩
  | succ fuel ih =>
    obtain ⟨fuel', rfl⟩ := Nat.exists_eq_add_of_le' (Nat.le_of_add_left_le hle)
    obtain ⟨hdestroy, hempty⟩ := ih (Nat.le_of_succ_le_succ hle)
    constructor
    · intro s s' id h
      rw [destroyTo] at h ⊢
      obtain ⟨⟨b, s₁⟩, hs₁, h⟩ := bind_eq_ok.mp h
      refine bind_eq_ok.mpr ⟨(b, s₁), hs₁, ?_⟩
      cases hn : s₁.node? id with
      | none => simpa only [hn] using h
      | some n =>
        simp only [hn] at h ⊢
        refine foldlM_ok_of_imp (fun s l s' hstep => ?_) h
        obtain ⟨s₂, hs₂, hs'⟩ := bind_eq_ok.mp hstep
        exact bind_eq_ok.mpr ⟨s₂, hempty s s₂ l hs₂, hs'⟩
    · intro s s' l h
      rw [emptyTo] at h ⊢
      cases hhead : s.head? l with
      | none => simpa only [hhead] using h
      | some x =>
        simp only [hhead] at h ⊢
        obtain ⟨s₁, hs₁, h⟩ := bind_eq_ok.mp h
        exact bind_eq_ok.mpr ⟨s₁, hdestroy s s₁ x hs₁, hempty s₁ s' l h⟩

/-- **What destroying makes does not depend on the fuel**, if there is enough. -/
theorem destroyTo_of_le {fuel fuel' : Nat} (h : s.destroyTo fuel id = .ok s') (hle : fuel ≤ fuel') :
    s.destroyTo fuel' id = .ok s' :=
  (destroyTo_and_emptyTo_of_le hle).1 s s' id h

end Links

namespace Tree

variable {α : Type} {t u : Tree α} {n : NodeId}

/-- The second tree is the first one without a node and exactly what is below it. -/
structure Felled (t u : Tree α) (n : NodeId) : Prop extends t.Pruned u n where
  /-- What is left are the nodes that are no number of levels below the node. -/
  contains : ∀ x, u.contains x ↔ t.contains x ∧ ∀ levels, ¬ t.links.Descends levels n x
  /-- What is left are the lists whose owner is left or that have none. -/
  list? : ∀ l, (u.list? l).isSome ↔
    (t.list? l).isSome ∧ ∀ o, t.owner? l = some o → u.contains o

/-- A list that is left has lost the node at most. -/
theorem Felled.row (h : t.Felled u n) {l : ListId} (hl : (u.list? l).isSome) :
    u.members l = (t.members l).filter (· != n) :=
  h.members l ((h.list? l).mp hl).2

section Remove

variable [Lockable α]

theorem exists_remove_of_contains (hn : t.contains n) (hfree : t.isLocked n = false) :
    ∃ a u, t.get? n = some a ∧ t.remove? n = some (a, u) := by
  obtain ⟨m, hm⟩ := Option.isSome_iff_exists.mp hn
  have hitem : t.get? n = some m.item := get?_of_node? hm
  have hlock : Lockable.locked m.item = false := by
    rw [isLocked, Links.isLocked, show t.links.get? n = some m.item from hitem] at hfree
    exact hfree
  obtain ⟨u, hu⟩ := exists_remove hitem hlock
  exact ⟨m.item, u, hitem, hu⟩

theorem remove_of_refused (h : t.contains n = false ∨ t.isLocked n = true) :
    t.links.remove n = .ok (none, t.links) :=
  h.elim remove_of_dead fun hlocked => if_pos hlocked

theorem felled_of_remove {a : α} (h : t.remove? n = some (a, u)) : t.Felled u n := by
  obtain ⟨hshrinks, hloses, hgone⟩ := shrinks_of_remove h
  exact ⟨pruned_of_remove h, fun x => hshrinks.contains_iff t.sound u.sound hloses hgone,
    fun l => hshrinks.isSome_list?_iff t.sound u.sound⟩

/-- A node that is removed is destroyed, by as many steps as it takes. -/
theorem answers_of_remove {a : α} (h : t.links.remove n = .ok (some a, u.links)) :
    Answers (fun fuel => (t.links.destroyTo fuel n).toOption) u.links := by
  rw [Links.remove] at h
  split at h
  · cases h
  · obtain ⟨s, hs, hr⟩ := bind_eq_ok.mp h
    obtain ⟨-, rfl⟩ := Prod.mk.inj (Except.ok.inj hr)
    exact ⟨_, fun fuel hfuel => congrArg Except.toOption (Links.destroyTo_of_le hs hfuel)⟩

/-- **Removing destroys exactly the subtree.** A node that is alive and not locked is removed with
exactly what is below it, locked or not and however the owners go round; what is left keeps its
item, its lists and its place. A node that is locked or gone leaves the tree as it is. -/
theorem remove_fells (t : Tree α) (id : NodeId) :
    (t.contains id ∧ t.isLocked id = false →
      ∃ a u, t.get? id = some a ∧ t.remove? id = some (a, u) ∧ t.Felled u id ∧
        t.links.remove id = .ok (some a, u.links) ∧
        Answers (fun fuel => (t.links.destroyTo fuel id).toOption) u.links) ∧
    (t.contains id = false ∨ t.isLocked id = true →
      t.remove? id = none ∧ t.links.remove id = .ok (none, t.links)) := by
  constructor
  · rintro ⟨hid, hfree⟩
    obtain ⟨a, u, hitem, hu⟩ := exists_remove_of_contains hid hfree
    have hlinks := remove_eq_of_remove? hu
    exact ⟨a, u, hitem, hu, felled_of_remove hu, hlinks, answers_of_remove hlinks⟩
  · intro hrefused
    have hlinks := remove_of_refused hrefused
    exact ⟨remove?_of_refused hlinks, hlinks⟩

/-- Two nodes in a list of each other, with a locked one beside the second and another one apart. -/
example :
    let t : Tree Bool := (List.replicate 4 ()).foldl (fun t _ => (t.create (t.size == 2)).2) empty
    let t := ((t.newList (some ⟨0⟩)).2.newList (some ⟨1⟩)).2
    let t := [(⟨0⟩, ⟨1⟩), (⟨0⟩, ⟨2⟩), (⟨1⟩, ⟨0⟩)].foldl (fun t (l, id) => (t.pushBack l id).2) t
    (t.remove? ⟨0⟩).map (fun r => (r.1, [⟨0⟩, ⟨1⟩, ⟨2⟩, ⟨3⟩].map r.2.contains, r.2.size)) =
      some (false, [false, false, false, true], 1) := by
  decide

end Remove

end Tree

end Toolpath
