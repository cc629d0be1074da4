import Toolpath.Proofs.Tree.Planting

/-!
# Copies as planted branches

A copy of a node is the branch that the node shows, planted with the function applied to every item.
The store makes a copy while it walks over the original, and so the original is looked at again and
again in a store that has grown in the meantime; what it shows there is what it showed in the
beginning.

Nothing is said here about whether there is a copy (`Links.duplicateTo_spec`).

## Main results

* `Links.planted_duplicateTo`, `Tree.planted_duplicateWith` — a copy is a planted branch
-/

namespace Toolpath

theorem bind_eq_ok {ε β γ : Type} {r : Except ε β} {k : β → Except ε γ} {c : γ} :
    r >>= k = .ok c ↔ ∃ b, r = .ok b ∧ k b = .ok c := by
  cases r with
  | error e => exact ⟨nofun, nofun⟩
  | ok b => exact ⟨fun h => ⟨b, rfl, h⟩, fun ⟨_, h, hk⟩ => Except.ok.inj h ▸ hk⟩

namespace Links

variable {α : Type}

/-- What a node shows in a store that has grown it showed before. -/
theorem Shows.of_extends {s s' : Links α} (hs : s.Sound) (h : s.Extends s') {x : NodeId}
    {b : Branch α} (hx : s.contains x) (hb : s'.Shows x b) : s.Shows x b := by
  induction b using Branch.forall_of_step generalizing x with
  | h a ls ih =>
    obtain ⟨m, hm, rfl, hls⟩ := shows_node_iff.mp hb
    obtain ⟨n, hn⟩ := Option.isSome_iff_exists.mp hx
    obtain rfl := Option.some.inj (hm.symm.trans (h.node hn))
    refine .node hn (forall₂_of_mem hls fun l hl bs hbs hbranches => ?_)
    obtain ⟨-, r, hr, -⟩ := hs.owned.owned hn hl
    rw [h.members (by rw [hr]; rfl)] at hbranches
    exact forall₂_of_mem hbranches fun y hy b hb => ih bs hbs b hb (hs.holds.alive l y hy).1

section Levels

variable {copy : Links α → NodeId → Except Fault (Option NodeId × Links α)} {f : α → α}
  {base s s' : Links α} {c : NodeId} {a : α} {done : List (List (Branch α))}

/-- The copies of some members, one after the other at the tail of a list. -/
theorem planted_copyMembers (hb : base.Sound)
    (hcopy : ∀ {s s' : Links α} {x y}, s.Sound → s.contains x → copy s x = .ok (y, s') →
      ∃ c b, y = some c ∧ s.Shows x b ∧ s.Planted c (b.map f) s')
    {xs : List NodeId} (hxs : ∀ x ∈ xs, base.contains x) {into : ListId} {cs : List (Branch α)}
    (h : base.Planted c (.node a (done ++ [cs])) s) (hlast : s.IsLast c into)
    (hfold : xs.foldlM (copyMember copy into) s = .ok s') :
    ∃ bs, List.Forall₂ base.Shows xs bs ∧
      base.Planted c (.node a (done ++ [cs ++ bs.map (Branch.map f)])) s' := by
  induction xs generalizing s cs with
  | nil =>
    obtain rfl := Except.ok.inj hfold
    exact ⟨[], .nil, by simpa using h⟩
  | cons x xs ih =>
    have hx := hxs x List.mem_cons_self
    rw [List.foldlM_cons, bind_eq_ok] at hfold
    obtain ⟨s₂, hmember, hrest⟩ := hfold
    rw [copyMember, bind_eq_ok] at hmember
    obtain ⟨⟨y, s₁⟩, hs₁, hpush⟩ := hmember
    obtain ⟨d, b, rfl, hshows, hd⟩ := hcopy h.sound (h.grown.contains hx) hs₁
    obtain ⟨s₃, hs₃, hplanted, hlast₃⟩ := h.pushBack hb hlast hd
    obtain rfl : s₃ = s₂ := by
      simp only [hs₃] at hpush
      exact Except.ok.inj hpush
    obtain ⟨bs, hbs, hfinal⟩ :=
      ih (fun x hx => hxs x (List.mem_cons_of_mem _ hx)) hplanted hlast₃ hrest
    refine ⟨b :: bs, .cons (hshows.of_extends hb h.grown hx) hbs, ?_⟩
    simpa using hfinal

/-- The copies of some lists, one after the other under the copy of their owner. -/
theorem planted_copyLists (hb : base.Sound)
    (hcopy : ∀ {s s' : Links α} {x y}, s.Sound → s.contains x → copy s x = .ok (y, s') →
      ∃ c b, y = some c ∧ s.Shows x b ∧ s.Planted c (b.map f) s')
    {ks : List ListId} (hks : ∀ k ∈ ks, (base.list? k).isSome)
    (h : base.Planted c (.node a done) s) (hfold : ks.foldlM (copyList copy c) s = .ok s') :
    ∃ ls, List.Forall₂ (fun l bs => List.Forall₂ base.Shows (base.members l) bs) ks ls ∧
      base.Planted c (.node a (done ++ ls.map (·.map (Branch.map f)))) s' := by
  induction ks generalizing s done with
  | nil =>
    obtain rfl := Except.ok.inj hfold
    exact ⟨[], .nil, by simpa using h⟩
  | cons k ks ih =>
    have hk := hks k List.mem_cons_self
    rw [List.foldlM_cons, bind_eq_ok] at hfold
    obtain ⟨s₁, hlist, hrest⟩ := hfold
    obtain ⟨hnew, hlast⟩ := h.newList
    have hmembers : (s.newList (some c)).2.members k = base.members k := hnew.grown.members hk
    simp only [copyList, hmembers] at hlist
    obtain ⟨bs, hbs, hplanted⟩ := planted_copyMembers hb hcopy
      (fun x hx => (hb.holds.alive k x hx).1) hnew hlast hlist
    obtain ⟨ls, hls, hfinal⟩ := ih (fun k hk => hks k (List.mem_cons_of_mem _ hk)) hplanted hrest
    exact ⟨bs :: ls, .cons hbs hls, by simpa using hfinal⟩

end Levels

/-- **A copy is a planted branch**: what the node shows, with the function applied to every item. -/
theorem planted_duplicateTo {f : α → α} {fuel : Nat} {s s' : Links α} {id : NodeId}
    {r : Option NodeId} (h : s.Sound) (hid : s.contains id)
    (hr : s.duplicateTo f fuel id = .ok (r, s')) :
    ∃ c b, r = some c ∧ s.Shows id b ∧ s.Planted c (b.map f) s' := by
  induction fuel generalizing s s' id r with
  | zero => cases hr
  | succ fuel ih =>
    obtain ⟨n, hn⟩ := Option.isSome_iff_exists.mp hid
    have hn₁ : (s.create (f n.item)).2.node? id = some n := (h.extends_create _).node hn
    simp only [duplicateTo, hn, nodeAt_of hn₁] at hr
    obtain ⟨m, hm, hr⟩ := bind_eq_ok.mp hr
    obtain rfl := Except.ok.inj hm
    obtain ⟨s₂, hlists, hs'⟩ := bind_eq_ok.mp hr
    obtain ⟨rfl, rfl⟩ := Prod.mk.inj (Except.ok.inj hs')
    have hks : ∀ k ∈ n.lists, (s.list? k).isSome := fun k hk => by
      obtain ⟨-, q, hq, -⟩ := h.owned.owned hn hk
      rw [hq]; rfl
    obtain ⟨ls, hls, hplanted⟩ := planted_copyLists h ih hks (h.planted_create (f n.item)) hlists
    exact ⟨_, .node n.item ls, rfl, .node hn hls, by simpa using hplanted⟩

end Links

/-- **A copy of a node is what the node shows**, with the function applied to every item, and
nothing else is new. -/
theorem Tree.planted_duplicateWith {α : Type} {t u : Tree α} {id copy : NodeId} {f : α → α}
    (h : t.duplicateWith? id f = some (copy, u)) :
    ∃ b, t.links.Shows id b ∧ t.links.Planted copy (b.map f) u.links := by
  have hs := Tree.duplicateWith?_eq_some_iff.mp h
  have hid : t.links.contains id := by
    rw [Links.contains, Option.isSome_iff_ne_none]
    intro hnone
    rw [Links.duplicateWith, Links.duplicateTo, hnone] at hs
    cases hs
  obtain ⟨_, b, hc, hshows, hplanted⟩ := Links.planted_duplicateTo t.sound hid hs
  obtain rfl := Option.some.inj hc
  exact ⟨b, hshows, hplanted⟩

end Toolpath
