import Toolpath.Proofs.Tree.Copies

/-!
# Stores that take in

Planting a branch and copying a node make nodes, make lists, and put what they made into lists. So
both are sequences of three kinds of steps, and whatever each of these steps keeps is kept by both.
Nothing is erased on the way, and it does not matter here which branch is planted or what the copy
shows (`Links.Planted` says that).

The names of nodes are given out in order. A node that a store lacks is gone for good or still to be
made, and a name tells which: a name below the next one never comes back.

## Main definitions

* `Links.Enlarges` — nodes are made, lists are made, nodes are linked
* `Links.Newer` — nodes that are new have new names

## Main results

* `Tree.plant_of_steps` — what making nodes, making lists and linking nodes keep is kept by planting
* `Tree.enlarges_plant`, `Tree.enlarges_duplicateWith` — planting and copying enlarge a store
* `Links.Enlarges.newer`, `Links.Shrinks.newer` — no name is used again
-/

namespace Toolpath

namespace Links

variable {α : Type} {s t u : Links α}

/-- The second store comes from the first one by making nodes and lists and by linking nodes. -/
inductive Enlarges (s : Links α) : Links α → Prop where
  /-- Nothing done. -/
  | refl : Enlarges s s
  /-- A further node made. -/
  | create {t : Links α} (h : Enlarges s t) (a : α) : Enlarges s (t.create a).2
  /-- A further list made. -/
  | newList {t : Links α} (h : Enlarges s t) (owner : Option NodeId) :
    Enlarges s (t.newList owner).2
  /-- Nodes linked in another way. -/
  | relink {t u : Links α} (h : Enlarges s t) (hu : t.Relinked u) : Enlarges s u

theorem Enlarges.trans (h : s.Enlarges t) (h' : t.Enlarges u) : s.Enlarges u := by
  induction h' with
  | refl => exact h
  | create _ a ih => exact ih.create a
  | newList _ owner ih => exact ih.newList owner
  | relink _ hu ih => exact ih.relink hu

/-! ### Copying -/

/-- The second store is in order and enlarges the first one. -/
def TakesIn (s t : Links α) : Prop := t.Sound ∧ s.Enlarges t

theorem TakesIn.trans (h : s.TakesIn t) (h' : t.TakesIn u) : s.TakesIn u :=
  ⟨h'.1, h.2.trans h'.2⟩

theorem Sound.takesIn_pushBack (h : s.Sound) {l : ListId} {id : NodeId} {r : Bool × Links α}
    (hr : s.pushBack l id = .ok r) : s.TakesIn r.2 := by
  by_cases hgo : s.contains id = false ∨ s.list? l = none
  · rw [pushBack_of_refused hgo] at hr
    obtain rfl := Except.ok.inj hr
    exact ⟨h, .refl⟩
  · obtain ⟨hid, hl⟩ := not_or.mp hgo
    obtain ⟨t, ht, harr⟩ := h.pushBack (by simpa using hid) (Option.isSome_iff_ne_none.mpr hl)
    obtain rfl := Except.ok.inj (ht.symm.trans hr)
    exact ⟨harr.sound, Enlarges.refl.relink harr.relinked⟩

theorem takesIn_foldlM {β : Type} {step : Links α → β → Except Fault (Links α)} {bs : List β}
    (hstep : ∀ {s t b}, s.Sound → step s b = .ok t → s.TakesIn t) (hs : s.Sound)
    (ht : bs.foldlM step s = .ok t) : s.TakesIn t := by
  induction bs generalizing s with
  | nil =>
    obtain rfl := Except.ok.inj ht
    exact ⟨hs, .refl⟩
  | cons b bs ih =>
    rw [List.foldlM_cons] at ht
    obtain ⟨u, hu, ht⟩ := bind_eq_ok.mp ht
    have hfirst := hstep hs hu
    exact hfirst.trans (ih hfirst.1 ht)

section Levels

variable {copy : Links α → NodeId → Except Fault (Option NodeId × Links α)}

theorem takesIn_copyMember
    (hcopy : ∀ {s id r}, s.Sound → copy s id = .ok r → s.TakesIn r.2) {into : ListId}
    {child : NodeId} (hs : s.Sound) (ht : copyMember copy into s child = .ok t) :
    s.TakesIn t := by
  obtain ⟨⟨c, u⟩, hu, ht⟩ := bind_eq_ok.mp ht
  have hcopied : s.TakesIn u := hcopy hs hu
  cases c with
  | none =>
    obtain rfl := Except.ok.inj ht
    exact hcopied
  | some c =>
    obtain ⟨r, hr, ht⟩ := bind_eq_ok.mp ht
    obtain rfl := Except.ok.inj ht
    exact hcopied.trans (hcopied.1.takesIn_pushBack hr)

theorem takesIn_copyList
    (hcopy : ∀ {s id r}, s.Sound → copy s id = .ok r → s.TakesIn r.2) {owner : NodeId}
    {l : ListId} (hs : s.Sound) (ht : copyList copy owner s l = .ok t) : s.TakesIn t := by
  have hmade : s.TakesIn (s.newList (some owner)).2 := ⟨hs.newList _, Enlarges.refl.newList _⟩
  exact hmade.trans (takesIn_foldlM (takesIn_copyMember hcopy) hmade.1 ht)

end Levels

theorem takesIn_duplicateTo {f : α → α} {fuel : Nat} {id : NodeId} {r : Option NodeId × Links α}
    (hs : s.Sound) (hr : s.duplicateTo f fuel id = .ok r) : s.TakesIn r.2 := by
  induction fuel generalizing s id r with
  | zero => cases hr
  | succ fuel ih =>
    rw [duplicateTo] at hr
    cases hn : s.node? id with
    | none =>
      rw [hn] at hr
      obtain rfl := Except.ok.inj hr
      exact ⟨hs, .refl⟩
    | some n =>
      simp only [hn] at hr
      obtain ⟨m, -, hr⟩ := bind_eq_ok.mp hr
      obtain ⟨t, ht, hr⟩ := bind_eq_ok.mp hr
      obtain rfl := Except.ok.inj hr
      have hmade : s.TakesIn (s.create (f n.item)).2 := ⟨hs.create _, Enlarges.refl.create _⟩
      exact hmade.trans (takesIn_foldlM (takesIn_copyList ih) hmade.1 ht)

/-! ### Names -/

/-- The nodes of the second store that the first one lacks have names that were not given out
yet. -/
structure Newer (s t : Links α) : Prop where
  /-- Names go on. -/
  next : s.nodes.nextKey ≤ t.nodes.nextKey
  /-- A node that was not there has a later name. -/
  made : ∀ x, t.contains x → s.contains x ∨ s.nodes.nextKey ≤ x.key

theorem Newer.refl (s : Links α) : s.Newer s := ⟨Nat.le_refl _, fun _ => .inl⟩

theorem Newer.trans (h : s.Newer t) (h' : t.Newer u) : s.Newer u where
  next := h.next.trans h'.next
  made := fun x hx => by
    rcases h'.made x hx with hx | hx
    · exact h.made x hx
    · exact .inr (h.next.trans hx)

theorem Relinked.newer (h : s.Relinked t) : s.Newer t :=
  ⟨h.nodes_nextKey.ge, fun x hx => .inl (h.contains x ▸ hx)⟩

theorem Shrinks.newer (h : s.Shrinks t) : s.Newer t :=
  ⟨h.counted.ge, fun _ hx => .inl (h.contains hx)⟩

theorem newer_create (s : Links α) (a : α) : s.Newer (s.create a).2 where
  next := by
    have hnext : (s.create a).2.nodes.nextKey = s.nodes.nextKey + 1 := Arena.nextKey_push _ _
    omega
  made := fun x hx => by
    rw [contains, node?_create] at hx
    split at hx
    · rename_i hself
      exact .inr (hself ▸ Nat.le_refl _)
    · exact .inl hx

theorem newer_newList (s : Links α) (owner : Option NodeId) : s.Newer (s.newList owner).2 where
  next := (nodes_nextKey_newList s owner).ge
  made := fun x hx => by
    rw [contains, node?_newList, Option.isSome_map] at hx
    exact .inl hx

theorem newer_modify (s : Links α) (id : NodeId) (f : α → α) : s.Newer (s.modify id f) where
  next := (Arena.nextKey_modify _ _ _).ge
  made := fun x hx => by
    rw [contains, node?_modify, Option.isSome_map] at hx
    exact .inl hx

/-- **A store that takes in uses no name again.** -/
theorem Enlarges.newer (h : s.Enlarges t) : s.Newer t := by
  induction h with
  | refl => exact .refl s
  | create _ a ih => exact ih.trans (newer_create _ a)
  | newList _ owner ih => exact ih.trans (newer_newList _ owner)
  | relink _ hu ih => exact ih.trans hu.newer

end Links

/-! ### Planting -/

namespace Tree

variable {α : Type}

theorem enlarges_pushBack (t : Tree α) (l : ListId) (id : NodeId) :
    t.links.Enlarges (t.pushBack l id).2.links := by
  obtain ⟨b, s, hs, -⟩ := t.sound.settles_pushBack l id
  have hlinks : (t.pushBack l id).2.links = s := (settle_eq _ hs).2
  exact hlinks ▸ (t.sound.takesIn_pushBack hs).2

section Steps

variable {P : Tree α → Prop}

theorem plantForest_of_steps (hpush : ∀ t l id, P t → P (t.pushBack l id).2) {bs : List (Branch α)}
    (hplant : ∀ b ∈ bs, ∀ t, P t → P (t.plant b).2) {t : Tree α} (ht : P t) (l : ListId) :
    P (t.plantForest l bs) := by
  induction bs generalizing t with
  | nil => exact ht
  | cons b bs ih =>
    have hplanted := hplant b List.mem_cons_self t ht
    exact ih (fun c hc => hplant c (List.mem_cons_of_mem b hc)) (hpush _ _ _ hplanted)

theorem plantLists_of_steps (hlist : ∀ t owner, P t → P (t.newList owner).2)
    (hpush : ∀ t l id, P t → P (t.pushBack l id).2) {ls : List (List (Branch α))}
    (hplant : ∀ bs ∈ ls, ∀ b ∈ bs, ∀ t, P t → P (t.plant b).2) {t : Tree α} (ht : P t)
    (owner : NodeId) : P (t.plantLists owner ls) := by
  induction ls generalizing t with
  | nil => exact ht
  | cons bs ls ih =>
    have hforest := plantForest_of_steps hpush (hplant bs List.mem_cons_self)
      (hlist t (some owner) ht) (t.newList (some owner)).1
    exact ih (fun cs hcs => hplant cs (List.mem_cons_of_mem bs hcs)) hforest

/-- **Planting makes nodes, makes lists and links nodes**: what each of these keeps is kept. -/
theorem plant_of_steps (hcreate : ∀ t a, P t → P (t.create a).2)
    (hlist : ∀ t owner, P t → P (t.newList owner).2)
    (hpush : ∀ t l id, P t → P (t.pushBack l id).2) (b : Branch α) {t : Tree α} (ht : P t) :
    P (t.plant b).2 := by
  induction b using Branch.forall_of_step generalizing t with
  | h a ls ih =>
    exact plantLists_of_steps hlist hpush (fun bs hbs b hb _ => ih bs hbs b hb) (hcreate t a ht)
      (t.create a).1

end Steps

/-- **Planting a branch enlarges a store.** -/
theorem enlarges_plant (t : Tree α) (b : Branch α) : t.links.Enlarges (t.plant b).2.links :=
  plant_of_steps (P := fun u => t.links.Enlarges u.links) (fun _ a hu => hu.create a)
    (fun _ owner hu => hu.newList owner) (fun u l id hu => hu.trans (u.enlarges_pushBack l id)) b
    .refl

theorem enlarges_attach (t : Tree α) (l : ListId) (b : Branch α) :
    t.links.Enlarges ((t.plant b).2.pushBack l (t.plant b).1).2.links :=
  (t.enlarges_plant b).trans ((t.plant b).2.enlarges_pushBack l (t.plant b).1)

/-- **Copying a node enlarges a store.** -/
theorem enlarges_duplicateWith {t u : Tree α} {id copy : NodeId} {f : α → α}
    (h : t.duplicateWith? id f = some (copy, u)) : t.links.Enlarges u.links :=
  (Links.takesIn_duplicateTo t.sound (duplicateWith?_eq_some_iff.mp h)).2

end Tree

end Toolpath
