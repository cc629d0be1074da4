import Toolpath.Proofs.Tree.Subtrees

/-!
# Planting

A branch that is planted is shown by its top. The tree grows while it is planted: one node after the
other, each with its lists, and each list member by member. At every moment what is there is a
planted branch already, only smaller, so one notion serves for the result and for everything on the
way to it.

Planting adds nothing else. Every node that is new is below the top, and as many nodes were made as
the branch has labels.

## Main definitions

* `Links.Planted` — a store with a branch planted in it

## Main results

* `Tree.planted_plant` — planting a branch makes such a store
-/

namespace Toolpath

namespace Links

variable {α : Type}

/-- A store in order that extends the one before by a branch, with the top in no list. -/
structure Planted (base : Links α) (top : NodeId) (b : Branch α) (s : Links α) : Prop extends
    base.Copied top s where
  /-- The top shows the branch. -/
  shows : s.Shows top b
  /-- What is new is below the top. -/
  covered : ∀ x, s.contains x → base.contains x ∨ ∃ levels, s.Descends levels top x
  /-- There is one new node for each label. -/
  counted : s.nodes.nextKey = base.nodes.nextKey + b.size

/-- The last of the lists of a node. -/
def IsLast (s : Links α) (id : NodeId) (l : ListId) : Prop :=
  ∃ n ks, s.node? id = some n ∧ n.lists = ks ++ [l]

theorem nodes_nextKey_newList (s : Links α) (owner : Option NodeId) :
    (s.newList owner).2.nodes.nextKey = s.nodes.nextKey := by
  unfold newList
  cases Option.filter s.contains owner with
  | none => rfl
  | some o => exact Arena.nextKey_modify _ _ _

/-- What holds of every node that was there, and of every label with the number of its lists, holds
of every node. -/
theorem Planted.each {base s : Links α} {top : NodeId} {b : Branch α} {P : α → Nat → Prop}
    (h : base.Planted top b s) (hbase : ∀ x n, base.node? x = some n → P n.item n.lists.length)
    (hb : b.Every P) : ∀ x n, s.node? x = some n → P n.item n.lists.length := by
  intro x n hn
  rcases h.covered x (by rw [contains, hn]; rfl) with hx | ⟨levels, hx⟩
  · obtain ⟨m, hm⟩ := Option.isSome_iff_exists.mp hx
    obtain rfl := Option.some.inj (hn.symm.trans (h.grown.node hm))
    exact hbase x n hm
  · obtain ⟨⟨a, ls⟩, hshows, -, hevery⟩ := h.shows.descends hx
    obtain ⟨m, hm, rfl, hls⟩ := shows_node_iff.mp hshows
    obtain rfl := Option.some.inj (hn.symm.trans hm)
    exact hls.length_eq ▸ (Branch.every_node_iff.mp (hevery P hb)).1

/-! ### Steps -/

section Steps

variable {base s s₁ : Links α} {top : NodeId} {a : α} {done : List (List (Branch α))}

theorem Sound.planted_create (h : s.Sound) (a : α) :
    s.Planted (s.create a).1 (.node a []) (s.create a).2 where
  sound := h.create a
  grown := h.extends_create a
  fresh := by simp [Links.create]
  alive := by rw [contains, node?_create, if_pos rfl]; rfl
  loose := by rw [listOf?, node?_create, if_pos rfl]; rfl
  shows := shows_node_iff.mpr ⟨_, by rw [node?_create, if_pos rfl], rfl, .nil⟩
  covered := fun x hx => by
    rw [contains, node?_create] at hx
    split at hx
    · exact .inr ⟨0, ‹x = _›.symm⟩
    · exact .inl hx
  counted := Arena.nextKey_push _ _

theorem Planted.list?_isLast (h : base.Planted top (.node a done) s) (hb : base.Sound) {l : ListId}
    (hl : s.IsLast top l) : base.list? l = none ∧ ∃ r, s.list? l = some r ∧ r.owner = some top := by
  obtain ⟨n, ks, hn, hlists⟩ := hl
  have hmem : l ∈ n.lists := hlists ▸ List.mem_append_right ks List.mem_cons_self
  obtain ⟨-, r, hr, ho⟩ := h.sound.owned.owned hn hmem
  refine ⟨?_, r, hr, ho⟩
  cases hq : base.list? l with
  | none => rfl
  | some q =>
    obtain rfl := Option.some.inj (hr.symm.trans (h.grown.list hq))
    obtain ⟨m, hm, -⟩ := hb.owned.listed hq ho List.not_mem_nil
    rw [h.fresh] at hm
    cases hm

/-- A further list under the top. -/
theorem Planted.newList (h : base.Planted top (.node a done) s) :
    base.Planted top (.node a (done ++ [[]])) (s.newList (some top)).2 ∧
      (s.newList (some top)).2.IsLast top (s.newList (some top)).1 := by
  obtain ⟨n, hn, rfl, hls⟩ := shows_node_iff.mp h.shows
  have hcopied := h.toCopied.newList
  have hnode : (s.newList (some top)).2.node? top =
      some { n with lists := n.lists ++ [(s.newList (some top)).1] } := by
    rw [node?_newList, hn, Option.map_some, if_pos rfl]
  have hkeeps : s.Keeps (s.newList (some top)).2 (some top) := by
    refine ⟨fun {x m} hm hx => ⟨m, ?_, rfl, rfl⟩, fun _ _ _ => ?_⟩
    case refine_2 => exact congrFun (h.sound.members_newList _) _
    rw [node?_newList, hm, Option.map_some, if_neg hx]
  have hfresh : s.members (s.newList (some top)).1 = [] :=
    h.sound.holds.row_of_dead (by rw [fst_newList]; simp)
  refine ⟨⟨hcopied, ?_, fun x hx => ?_, ?_⟩, _, n.lists, hnode, rfl⟩
  · refine shows_node_iff.mpr ⟨_, hnode, rfl, List.rel_append ?_ (.cons ?_ .nil)⟩
    · refine forall₂_of_mem hls fun l hl bs hbs hbranches => ?_
      rw [h.sound.members_newList]
      refine forall₂_of_mem hbranches fun x hx b hb hshows => ?_
      refine hshows.keep h.sound hkeeps (fun y hy => Option.some.inj hy ▸ h.loose) fun he => ?_
      exact h.sound.holds.not_mem_of_listOf? h.loose l (Option.some.inj he ▸ hx)
    · rw [h.sound.members_newList, hfresh]
      exact .nil
  · have hx : s.contains x := by simpa [contains, node?_newList] using hx
    rcases h.covered x hx with hx | ⟨levels, hx⟩
    · exact .inl hx
    · exact .inr ⟨levels, (h.sound.grows_newList _).descends hx⟩
  · rw [nodes_nextKey_newList, h.counted]
    rw [Branch.size_node, Branch.size_node, Branch.sizeOfLists_append]
    rfl

/-- The top shows what it did and the branch of the new member, at the end of the last list. -/
theorem Planted.shows_pushBack {c : NodeId} {b : Branch α} {bs : List (Branch α)} {s₂ : Links α}
    (h : base.Planted top (.node a (done ++ [bs])) s) (hc : s.Planted c b s₁) {l : ListId}
    {r : Siblings} (hl : s.IsLast top l) (hr : s.list? l = some r) (ho : r.owner = some top)
    (harr : s₁.Rearranged s₂ (put s₁.members l (s₁.members l ++ [c])))
    (hnode : s₂.node? top = s.node? top) :
    s₂.Shows top (.node a (done ++ [bs ++ [b]])) := by
  obtain ⟨n, hn, rfl, hls⟩ := shows_node_iff.mp h.shows
  obtain ⟨m, ks, hm, hlists⟩ := hl
  obtain rfl := Option.some.inj (hn.symm.trans hm)
  have hkeeps : s₁.Keeps s₂ (some top) := ho ▸ harr.keeps hc.sound (hc.grown.list hr)
  have hloose : ∀ x, some top = some x → s₁.listOf? x = none := by
    rintro x hx
    obtain rfl := Option.some.inj hx
    exact (h.toCopied.grow hc.sound hc.grown).loose
  have hne : some top ≠ some c := fun he => h.toCopied.ne hc.toCopied (Option.some.inj he)
  -- the top is in no list, so whatever is shown below it does not change with its lists
  have hstay {x : NodeId} {k : ListId} {d : Branch α} (hx : x ∈ s.members k) (hd : s.Shows x d) :
      s₂.Shows x d := by
    have hd₁ := hd.keep h.sound (hc.grown.keeps h.sound) (by simp) (by simp)
    refine hd₁.keep hc.sound hkeeps hloose fun he => ?_
    exact h.sound.holds.not_mem_of_listOf? h.loose k (Option.some.inj he ▸ hx)
  have hmembers {k : ListId} (hk : k ∈ n.lists) : s₁.members k = s.members k := by
    obtain ⟨-, q, hq, -⟩ := h.sound.owned.owned hn hk
    exact hc.grown.members (by rw [hq]; rfl)
  rw [hlists] at hls
  obtain ⟨hdone, hlast⟩ := forall₂_concat_iff.mp hls
  refine shows_node_iff.mpr ⟨n, hnode.trans hn, rfl, hlists ▸ forall₂_concat_iff.mpr ⟨?_, ?_⟩⟩
  · refine forall₂_of_mem hdone fun k hk ds hds hbranches => ?_
    have hkl : k ≠ l := by
      have hnodup := h.sound.owned.nodup hn
      rw [hlists] at hnodup
      rintro rfl
      exact (List.nodup_append.mp hnodup).2.2 k hk k List.mem_cons_self rfl
    have hmem : k ∈ n.lists := hlists ▸ List.mem_append_left _ hk
    rw [harr.members, put_of_ne hkl, hmembers hmem]
    exact forall₂_of_mem hbranches fun x hx d _ hd => hstay hx hd
  · have hmem : l ∈ n.lists := hlists ▸ List.mem_append_right ks List.mem_cons_self
    rw [harr.members, put_self, hmembers hmem, forall₂_concat_iff]
    refine ⟨forall₂_of_mem hlast fun x hx d _ hd => hstay hx hd, ?_⟩
    exact hc.shows.keep hc.sound hkeeps hloose hne

/-- A further member of the last list under the top. -/
theorem Planted.pushBack {c : NodeId} {b : Branch α} {bs : List (Branch α)}
    (h : base.Planted top (.node a (done ++ [bs])) s) (hb : base.Sound) {l : ListId}
    (hl : s.IsLast top l) (hc : s.Planted c b s₁) :
    ∃ s₂, s₁.pushBack l c = .ok (true, s₂) ∧
      base.Planted top (.node a (done ++ [bs ++ [b]])) s₂ ∧ s₂.IsLast top l := by
  obtain ⟨hnew, r, hr, ho⟩ := h.list?_isLast hb hl
  obtain ⟨s₂, hs₂, hcopied, harr, hnode⟩ :=
    h.toCopied.pushBack hb hnew (by rw [hr]; rfl) hc.toCopied
  have hshows := h.shows_pushBack hc hl hr ho harr hnode
  obtain ⟨n, ks, hn, hlists⟩ := hl
  have hchild : s₂.IsChild top c := by
    refine ⟨n, l, hnode.trans hn, by rw [hlists]; simp, ?_⟩
    rw [harr.members, put_self]
    simp
  have hgrows : s₁.Grows s₂ := harr.grows (List.subset_append_left _ _)
  refine ⟨s₂, hs₂, ⟨hcopied, hshows, fun x hx => ?_, ?_⟩, n, ks, hnode.trans hn, hlists⟩
  · rw [harr.relinked.contains] at hx
    rcases hc.covered x hx with hx | ⟨levels, hx⟩
    · rcases h.covered x hx with hx | ⟨levels, hx⟩
      · exact .inl hx
      · exact .inr ⟨levels, hgrows.descends ((hc.grown.grows h.sound).descends hx)⟩
    · exact .inr ⟨levels + 1, c, hchild, hgrows.descends hx⟩
  · rw [harr.relinked.nodes_nextKey, hc.counted, h.counted]
    simp only [Branch.size_node, Branch.sizeOfLists_append, Branch.sizeOfLists_singleton,
      Branch.sizeOfForest_append, Branch.sizeOfForest_singleton]
    omega

end Steps

end Links

/-! ### Planting -/

namespace Tree

open Links

variable {α : Type} {t : Tree α}

theorem pushBack_links {l : ListId} {id : NodeId} {s : Links α}
    (h : t.links.pushBack l id = .ok (true, s)) : (t.pushBack l id).2.links = s :=
  (settle_eq _ h).2

variable {base : Links α} {top : NodeId} {a : α}

theorem planted_plantForest {bs : List (Branch α)} (hb : base.Sound)
    (hplant : ∀ b ∈ bs, ∀ t : Tree α, t.links.Planted (t.plant b).1 b (t.plant b).2.links)
    {done : List (List (Branch α))} {cs : List (Branch α)} {l : ListId}
    (h : base.Planted top (.node a (done ++ [cs])) t.links) (hl : t.links.IsLast top l) :
    base.Planted top (.node a (done ++ [cs ++ bs])) (t.plantForest l bs).links := by
  induction bs generalizing t cs with
  | nil => simpa [plantForest] using h
  | cons b bs ih =>
    obtain ⟨s, hs, hplanted, hlast⟩ := h.pushBack hb hl (hplant b List.mem_cons_self t)
    have hlinks := pushBack_links hs
    rw [← hlinks] at hplanted hlast
    have hrest := ih (fun b hb => hplant b (List.mem_cons_of_mem _ hb)) hplanted hlast
    simpa [plantForest] using hrest

theorem planted_plantLists {ls : List (List (Branch α))} (hb : base.Sound)
    (hplant : ∀ bs ∈ ls, ∀ b ∈ bs, ∀ t : Tree α,
      t.links.Planted (t.plant b).1 b (t.plant b).2.links)
    {done : List (List (Branch α))} (h : base.Planted top (.node a done) t.links) :
    base.Planted top (.node a (done ++ ls)) (t.plantLists top ls).links := by
  induction ls generalizing t done with
  | nil => simpa [plantLists] using h
  | cons bs ls ih =>
    obtain ⟨hnew, hlast⟩ := h.newList
    have hforest := planted_plantForest (t := (t.newList (some top)).2)
      (l := (t.newList (some top)).1) hb (hplant bs List.mem_cons_self) hnew hlast
    have hrest := ih (fun bs hbs => hplant bs (List.mem_cons_of_mem _ hbs)) hforest
    simpa [plantLists] using hrest

/-- **Planting a branch adds the branch**, and nothing else. -/
theorem planted_plant (t : Tree α) (b : Branch α) :
    t.links.Planted (t.plant b).1 b (t.plant b).2.links := by
  induction b using Branch.forall_of_step generalizing t with
  | h a ls ih =>
    have hcreate : t.links.Planted (t.create a).1 (.node a []) (t.create a).2.links :=
      t.sound.planted_create a
    exact planted_plantLists t.sound ih hcreate

end Tree

end Toolpath
