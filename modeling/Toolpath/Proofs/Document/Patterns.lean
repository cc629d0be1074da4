import Toolpath.Proofs.Block.Derived
import Toolpath.Proofs.Document.Conversion
import Toolpath.Proofs.Document.Forest
import Toolpath.Proofs.Tree.Refilling

/-!
# Patterns of bolt holes

The circles of a bolt hole pattern are kept as its children. To make them anew, the children are
destroyed and the circles pushed one after the other. In exact arithmetic it does not matter whether
this comes before or after the block is scaled with everything below it: the pattern and its circles
are the same either way.

The block must not be below itself, or the scaling does not end. What goes round elsewhere in the
tree is of no concern: the way up from what is destroyed does not lead to the block.

## Main definitions

* `Document.withChildren` — a block and the blocks in its list

## Main results

* `Document.exists_rebuildBoltHoles` — what making the circles anew leaves
* `Document.withChildren_scale` — what scaling leaves
* `Document.scales_derived` — what is derived is scaled with the rest
-/

namespace Toolpath

namespace Tree

open Links

variable {α : Type} {t : Tree α} {id : NodeId} {l : ListId}

/-- A list that is emptied loses its members and what is below them. -/
theorem loses_destroyList (t : Tree α) (l : ListId) :
    t.links.Shrinks (t.destroyList l).links ∧
      t.links.Loses (t.destroyList l).links (· ∈ t.members l) ∧
      (t.destroyList l).members l = [] := by
  obtain ⟨s, hs, hsound, hshrinks, hloses, hhead⟩ := t.sound.destroyList l
  have hlinks : (t.destroyList l).links = s := (settle_eq (b := ()) _ (by rw [hs]; rfl)).2
  exact ⟨hlinks ▸ hshrinks, hlinks ▸ hloses, by
    rw [members, hlinks]
    exact hsound.members_of_head? hhead⟩

/-- A node that is not below itself is left when one of its lists is emptied. -/
theorem kept_destroyList (hid : t.contains id) (hself : ¬ t.links.BelowItself id)
    (hl : l ∈ t.childLists id) :
    (t.destroyList l).get? id = t.get? id ∧ (t.destroyList l).childLists id = t.childLists id ∧
      ((t.destroyList l).list? l).isSome ∧ ¬ (t.destroyList l).links.BelowItself id := by
  obtain ⟨hshrinks, hloses, hempty⟩ := loses_destroyList t l
  have hemptied := emptied_of_loses hshrinks hloses hempty
  have hout := not_within hself hl
  have hnode := hemptied.node id ((hemptied.contains id).mpr ⟨hid, hout⟩)
  refine ⟨congrArg (Option.map TreeNode.item) hnode,
    congrArg (fun n => (n.map TreeNode.lists).getD []) hnode, ?_, ?_⟩
  · have howner := owner?_of_mem_childLists hl
    obtain ⟨r, hr, -⟩ := Option.bind_eq_some_iff.mp howner
    refine (hemptied.lists l).mpr ⟨Option.isSome_iff_exists.mpr ⟨r, hr⟩, fun o ho => ?_⟩
    obtain rfl := Option.some.inj (howner.symm.trans ho)
    exact hout
  · rintro ⟨levels, hlevels⟩
    exact hself ⟨levels, hshrinks.grows.descends hlevels⟩

end Tree

theorem Block.exists_of_kind_boltHoles {R S : Type} {b : Block R S} (h : b.kind = .boltHoles) :
    ∃ holes, b.payload = .boltHoles holes := by
  unfold kind at h
  cases hp : b.payload with
  | boltHoles holes => exact ⟨holes, rfl⟩
  | _ => rw [hp] at h; cases h

namespace Document

variable {R S : Type} {d e : Document R S} {id : NodeId} {l : ListId}

/-- A block and the blocks in its list, if it has one. -/
def withChildren (d : Document R S) (id : NodeId) :
    Option (Block R S) × List (Option (Block R S)) :=
  (d.get? id, ((d.children? id).map fun l => (d.tree.members l).map d.get?).getD [])

/-! ### Circles made anew -/

theorem foldl_push (d : Document R S) (l : ListId) (bs : List (Block R S)) :
    bs.foldl (fun d b => (d.push l b).2) d = (d.attachAll l (bs.map bare)).2 := by
  induction bs generalizing d with
  | nil => rfl
  | cons b bs ih =>
    rw [List.foldl_cons, ih, push_eq_attach]
    rfl

/-- Blocks that are attached are there with nothing in their lists. -/
theorem map_get?_of_shows {ids : List NodeId} {bs : List (Block R S)}
    (h : List.Forall₂ d.tree.links.Shows ids (bs.map bare)) : ids.map d.get? = bs.map some := by
  induction bs generalizing ids with
  | nil =>
    cases h
    rfl
  | cons b bs ih =>
    cases h with
    | cons hshows hrest =>
      obtain ⟨n, hn, hitem, -⟩ := Links.shows_node_iff.mp hshows
      have hget : d.get? _ = some b :=
        (Tree.get?_of_node? hn).trans (congrArg some hitem)
      rw [List.map_cons, List.map_cons, hget, ih hrest]

theorem withChildren_eq {b : Block R S} (hb : d.get? id = some b) (hl : d.children? id = some l) :
    d.withChildren id = (some b, (d.tree.members l).map d.get?) := by
  rw [withChildren, hb, hl]
  rfl

/-- Blocks that are attached to the empty list of a block are its children, and it stays. -/
theorem withChildren_of_adds {b : Block R S} {bs : List (Block R S)} {ids : List NodeId}
    (h : d.tree.Adds e.tree l ids (bs.map bare)) (hb : d.get? id = some b)
    (hl : d.children? id = some l) (hempty : d.tree.members l = []) :
    e.withChildren id = (some b, bs.map some) := by
  obtain ⟨n, hn, hitem⟩ := Option.map_eq_some_iff.mp hb
  obtain ⟨m, hm, hmitem, hmlists, -⟩ := h.node hn
  have hbe : e.get? id = some b :=
    (Tree.get?_of_node? hm).trans (congrArg some (hmitem.trans hitem))
  have hlists : e.tree.childLists id = d.tree.childLists id := by
    rw [Tree.childLists_of_node? hm, Tree.childLists_of_node? hn, hmlists]
  rw [withChildren_eq hbe ((congrArg List.head? hlists).trans hl), h.members, hempty,
    List.nil_append, map_get?_of_shows h.shows]

/-- The circles of a pattern are made anew by emptying its list and attaching them there. -/
theorem rebuildBoltHoles_of_pattern [Analytic R] {b : Block R S} {holes : BoltHoles R}
    (hb : d.get? id = some b) (hp : b.payload = .boltHoles holes) (hl : d.children? id = some l) :
    d.rebuildBoltHoles id = .ok ((d.withTree (d.tree.destroyList l)).attachAll l
      ((holes.circles.map fun a => { payload := .arc a }).map bare)).2 := by
  simp only [rebuildBoltHoles, hb, hp, hl]
  rw [← foldl_push, List.foldl_map]

/-- **The circles of a pattern made anew** are the children of the block, which stays as it is. -/
theorem exists_rebuildBoltHoles [Analytic R] {b : Block R S} {holes : BoltHoles R}
    (hself : ¬ d.tree.links.BelowItself id) (hb : d.get? id = some b)
    (hp : b.payload = .boltHoles holes) (hl : d.children? id = some l) :
    ∃ e, d.rebuildBoltHoles id = .ok e ∧ ¬ e.tree.links.BelowItself id ∧
      e.withChildren id = (some b, holes.circles.map fun a => some { payload := .arc a }) := by
  obtain ⟨hget, hlists, halive, hself'⟩ :=
    Tree.kept_destroyList (contains_of_get? hb) hself (List.mem_of_mem_head? hl)
  let cleared := d.withTree (d.tree.destroyList l)
  let blocks : List (Block R S) := holes.circles.map fun a => { payload := .arc a }
  have hbc : cleared.get? id = some b := hget.trans hb
  have hlc : cleared.children? id = some l := (congrArg List.head? hlists).trans hl
  have hadds := cleared.adds_attachAll halive (blocks.map bare)
  refine ⟨_, rebuildBoltHoles_of_pattern hb hp hl, ?_, ?_⟩
  · exact hadds.toStays.not_belowItself cleared.tree.sound (Tree.sound _)
      (contains_of_get? hbc) hself'
  · rw [withChildren_of_adds hadds hbc hlc (Tree.loses_destroyList d.tree l).2.2, List.map_map]
    rfl

/-- A block of another kind is refused. -/
theorem rebuildBoltHoles_of_kind_ne [Analytic R] {b : Block R S} (hb : d.get? id = some b)
    (hkind : b.kind ≠ .boltHoles) : d.rebuildBoltHoles id = .error (.notAContainer b.kind) := by
  simp only [rebuildBoltHoles, hb]
  split
  · next holes hp => exact absurd (congrArg Payload.kind hp) hkind
  · rfl

/-- So is a pattern without a list. -/
theorem rebuildBoltHoles_of_childless [Analytic R] {b : Block R S} (hb : d.get? id = some b)
    (hl : d.children? id = none) : d.rebuildBoltHoles id = .error (.notAContainer b.kind) := by
  simp only [rebuildBoltHoles, hb, hl]
  split
  · next holes hp =>
    have hkind : b.kind = .boltHoles := congrArg Payload.kind hp
    rw [hkind]
  · rfl

/-! ### Scaling -/

section

variable [Scalar R] [Storage R S] {k : R}

theorem children?_scale (d : Document R S) (id x : NodeId) (k : R) :
    (d.scale id k).children? x = d.children? x :=
  unseen_modifyEach (F := fun t => (t.childLists x).head?)
    (fun f t => congrArg List.head? (Tree.childLists_relabel f t x)) d _ _

theorem not_belowItself_scale (h : ¬ d.tree.links.BelowItself id) (k : R) :
    ¬ (d.scale id k).tree.links.BelowItself id := by
  rintro ⟨levels, hlevels⟩
  exact h ⟨levels, (grows_modifyEach d _ _).descends hlevels⟩

theorem get?_scale_of_descends {x : NodeId} {levels : Nat} (hid : d.tree.contains id)
    (hself : ¬ d.tree.links.BelowItself id) (hx : d.tree.links.Descends levels id x) :
    (d.scale id k).get? x = (d.get? x).map (·.scale k) := by
  obtain ⟨b, hshows, -⟩ := d.tree.sound.exists_shows hid hself
  have hbelow := Tree.comprises_subtree hshows
  exact get?_modifyEach_of_mem hbelow.nodup ((hbelow.mem_iff x).mpr ⟨levels, hx⟩)

theorem get?_scale (hself : ¬ d.tree.links.BelowItself id) (k : R) :
    (d.scale id k).get? id = (d.get? id).map (·.scale k) := by
  cases hb : d.get? id with
  | some b =>
    have hitself : d.tree.links.Descends 0 id id := rfl
    rw [get?_scale_of_descends (contains_of_get? hb) hself hitself, hb]
  | none =>
    have hsame : ((d.scale id k).get? id).isSome = (d.get? id).isSome :=
      unseen_modifyEach (F := fun t => (t.get? id).isSome)
        (fun f t => by rw [Tree.get?_relabel, Option.isSome_map]) d (·.scale k) (d.tree.subtree id)
    rw [hb] at hsame
    exact Option.isSome_eq_false_iff.mp hsame |> Option.isNone_iff_eq_none.mp

/-- **A block that is scaled** has its children scaled as well. -/
theorem withChildren_scale (hid : d.tree.contains id) (hself : ¬ d.tree.links.BelowItself id) :
    (d.scale id k).withChildren id =
      ((d.get? id).map (·.scale k), (d.withChildren id).2.map (Option.map (·.scale k))) := by
  have hget {x : NodeId} {levels : Nat} (hx : d.tree.links.Descends levels id x) :=
    get?_scale_of_descends (k := k) hid hself hx
  have hmembers : (d.scale id k).tree.members = d.tree.members :=
    unseen_modifyEach Tree.members_relabel d _ _
  rw [withChildren, withChildren, children?_scale, hmembers,
    hget (show d.tree.links.Descends 0 id id from rfl)]
  cases hl : d.children? id with
  | none => rfl
  | some l =>
    refine congrArg (Prod.mk _) ?_
    show (d.tree.members l).map _ = ((d.tree.members l).map _).map _
    rw [List.map_map]
    obtain ⟨n, hn⟩ := Option.isSome_iff_exists.mp hid
    have hlists : d.tree.childLists id = n.lists := Tree.childLists_of_node? hn
    refine List.map_congr_left fun y hy => ?_
    have hchild : d.tree.links.Descends 1 id y :=
      ⟨y, ⟨n, l, hn, hlists ▸ List.mem_of_mem_head? hl, hy⟩, rfl⟩
    exact hget hchild

end

/-! ### One after the other -/

section

open Exact

variable {K : Type} [Field K] [LinearOrder K] [FloorRing K] [Angular K] {d : Document K K} {k : K}

/-- A pattern of a document, made anew before it is scaled or after. -/
theorem exists_withChildren_scale {b : Block K K} {holes : BoltHoles K}
    (hself : ¬ d.tree.links.BelowItself id) (hb : d.get? id = some b)
    (hp : b.payload = .boltHoles holes) (hl : d.children? id = some l) :
    ∃ e f, d.rebuildBoltHoles id = .ok e ∧ (d.scale id k).rebuildBoltHoles id = .ok f ∧
      ¬ e.tree.links.BelowItself id ∧ e.tree.contains id ∧
      f.withChildren id = (e.scale id k).withChildren id ∧
      (e.scale id k).withChildren id = (some (b.scale k),
        holes.circles.map fun a => some { payload := .arc (a.scale k) }) := by
  obtain ⟨e, he, heself, heview⟩ := exists_rebuildBoltHoles hself hb hp hl
  obtain ⟨f, hf, -, hfview⟩ := exists_rebuildBoltHoles (not_belowItself_scale hself k)
    ((get?_scale hself k).trans (congrArg _ hb)) (congrArg (·.scale k) hp)
    ((children?_scale d id id k).trans hl)
  have hbe : e.get? id = some b := congrArg Prod.fst heview
  have hafter : (e.scale id k).withChildren id = (some (b.scale k),
      holes.circles.map fun a => some { payload := .arc (a.scale k) }) := by
    rw [withChildren_scale (contains_of_get? hbe) heself, hbe, heview, List.map_map]
    rfl
  refine ⟨e, f, he, hf, heself, contains_of_get? hbe, ?_, hafter⟩
  rw [hfview, hafter, BoltHoles.circles_scale, List.map_map]
  rfl

/-- Where there is no pattern with a list, the refusal is the same before the scaling and after. -/
theorem rebuildBoltHoles_scale (hself : ¬ d.tree.links.BelowItself id) :
    ((d.scale id k).rebuildBoltHoles id).map (·.withChildren id) =
      (d.rebuildBoltHoles id).map fun e => (e.scale id k).withChildren id := by
  have hscaled := get?_scale hself k
  cases hb : d.get? id with
  | none =>
    rw [hb, Option.map_none] at hscaled
    rw [rebuildBoltHoles, rebuildBoltHoles, hb, hscaled]
    rfl
  | some b =>
    rw [hb, Option.map_some] at hscaled
    by_cases hkind : b.kind = .boltHoles
    · cases hl : d.children? id with
      | none =>
        rw [rebuildBoltHoles_of_childless hb hl, rebuildBoltHoles_of_childless hscaled
          ((children?_scale d id id k).trans hl), Block.kind_scale]
        rfl
      | some l =>
        obtain ⟨holes, hp⟩ := Block.exists_of_kind_boltHoles hkind
        obtain ⟨e, f, he, hf, -, -, hview, -⟩ := exists_withChildren_scale hself hb hp hl
        rw [he, hf]
        exact congrArg Except.ok hview
    · rw [rebuildBoltHoles_of_kind_ne hb hkind, rebuildBoltHoles_of_kind_ne hscaled
        ((b.kind_scale k).trans_ne hkind), Block.kind_scale]
      rfl

/-- **What is derived is scaled with the rest.** The holes of a pattern, the center and the end of
an arc and the contours of a mesh are those of the payload before, multiplied. So scaling a pattern,
which ends, leaves the same circles whether they are made anew before or after. -/
theorem scales_derived {K : Type} [Field K] [LinearOrder K] [IsStrictOrderedRing K] [FloorRing K]
    [Angular K] {k : K} (hk : 0 < k) :
    (∀ holes : BoltHoles K,
      (Payload.boltHoles holes : Payload K K).scale k = .boltHoles (holes.scale k) ∧
        (holes.scale k).centers = holes.centers.map (·.scale k)) ∧
      (∀ a : Arc K, (Payload.arc a : Payload K K).scale k = .arc (a.scale k) ∧
        (a.scale k).center = a.center.scale k ∧ (a.scale k).finish = a.finish.scale k) ∧
      (∀ m : Mesh K K, (Payload.mesh m).scale k = .mesh (m.scale k) ∧
        (m.scale k).contours = m.rebuild.contours.map (·.scale k)) ∧
      ∀ (d : Document K K) (id : NodeId), ¬ d.tree.links.BelowItself id →
        ((d.scale id k).rebuildBoltHoles id).map (·.withChildren id) =
            (d.rebuildBoltHoles id).map (fun e => (e.scale id k).withChildren id) ∧
          ∀ b holes l, d.get? id = some b → b.payload = .boltHoles holes →
            d.children? id = some l → ∃ e, d.rebuildBoltHoles id = .ok e ∧
              Answers (scaleTo k · d id) (d.scale id k) ∧
              Answers (scaleTo k · e id) (e.scale id k) ∧
              (e.scale id k).withChildren id = (some (b.scale k),
                holes.circles.map fun a => some { payload := .arc (a.scale k) }) := by
  refine ⟨fun holes => ⟨rfl, holes.centers_scale k⟩,
    fun a => ⟨rfl, a.center_scale k, a.finish_scale k⟩,
    fun m => ⟨rfl, m.contours_scale hk⟩,
    fun d id hself => ⟨rebuildBoltHoles_scale hself, fun b holes l hb hp hl => ?_⟩⟩
  obtain ⟨e, f, he, -, heself, halive, -, hafter⟩ := exists_withChildren_scale hself hb hp hl
  exact ⟨e, he, answers_scaleTo k hself (contains_of_get? hb), answers_scaleTo k heself halive,
    hafter⟩

/-- A template with a pattern of four holes in it, under which there is one circle already. -/
noncomputable def holesNested : List (ListId × Block ℝ ℝ) :=
  [(⟨0⟩, { payload := .standard .template }), (⟨1⟩, { payload := .boltHoles BoltHoles.standard }),
    (⟨2⟩, { payload := .arc (Arc.circle Vec2.zero 1) })]

theorem scales_derived_holesNested :
    let d : Document ℝ ℝ := (new "plate").pushEach holesNested
    (0 : ℝ) < 25.4 ∧ ¬ d.tree.links.BelowItself ⟨1⟩ ∧ (d.withChildren ⟨1⟩).2.length = 1 ∧
      ∃ e, d.rebuildBoltHoles ⟨1⟩ = .ok e ∧ ((e.scale ⟨1⟩ 25.4).withChildren ⟨1⟩).2.length = 4 ∧
        ((d.scale ⟨1⟩ 25.4).rebuildBoltHoles ⟨1⟩).map (·.withChildren ⟨1⟩) =
          .ok ((e.scale ⟨1⟩ 25.4).withChildren ⟨1⟩) := by
  intro d
  have hk : (0 : ℝ) < 25.4 := by norm_num
  have hacyclic : d.tree.links.Acyclic := acyclic_pushEach (acyclic_new _) (by decide +kernel)
  obtain ⟨-, -, -, hpatterns⟩ := scales_derived hk
  obtain ⟨hboth, hpattern⟩ := hpatterns d ⟨1⟩ (hacyclic ⟨1⟩)
  obtain ⟨e, he, -, -, hview⟩ := hpattern _ BoltHoles.standard ⟨2⟩ rfl rfl rfl
  refine ⟨hk, hacyclic ⟨1⟩, rfl, e, he, ?_, ?_⟩
  · rw [hview]
    rfl
  · rw [hboth, he]
    rfl

end

end Document

end Toolpath
