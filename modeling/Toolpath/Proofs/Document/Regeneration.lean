import Toolpath.Proofs.Document.Patterns
import Toolpath.Proofs.Tree.Refilling

/-!
# What making the circles of a pattern anew leaves

The children of a bolt hole pattern may have been edited: there may be other blocks among them,
locked ones, and blocks below these. Making the circles anew destroys them all and puts one circle
for each hole in their place. It is refused where there is no pattern with a list, and then nothing
was destroyed. In place, this is a matter of order, and `renewHoles` says in which order the steps
come: the list is emptied when nothing is left that could refuse.

## Main definitions

* `Document.renewHoles` — the edit in place, step by step
* `Document.Renewed` — a document with the circles of a pattern made anew

## Main results

* `Document.run_renewHoles` — in place, what is refused changes nothing
* `Document.exists_renewed` — what is left where there is a pattern
* `Document.rebuildBoltHoles_renews` — both, and once more
-/

namespace Toolpath

/-- The circle of a hole as a block. It begins to the right of its center and goes all the way
round. -/
def BoltHoles.circleAt {R S : Type} [Scalar R] (holes : BoltHoles R) (center : Vec2 R) :
    Block R S where
  payload := .arc
    { start := ⟨center.x + holes.holeDiameter / 2, center.y⟩
      radius := holes.holeDiameter / 2
      startAngle := 0
      sweep := 360 }
  comment := ""
  flags := { locked := false, suppressed := false }

/-- These are the blocks that a pattern is given. -/
theorem BoltHoles.map_circles {R S : Type} [Analytic R] (holes : BoltHoles R) :
    (holes.circles.map fun a => ({ payload := .arc a } : Block R S)) =
      holes.centers.map holes.circleAt := by
  rw [circles, List.map_map]
  rfl

namespace Document

variable {R S : Type} {d e : Document R S} {id : NodeId} {l : ListId}

/-! ### Attaching single blocks -/

theorem newer_attachAll (d : Document R S) (l : ListId) (bs : List (Branch (Block R S))) :
    d.tree.links.Newer (d.attachAll l bs).2.tree.links := by
  induction bs generalizing d with
  | nil => exact .refl _
  | cons b bs ih => exact (d.tree.enlarges_attach l b).newer.trans (ih (d.attach l b).2)

/-- A block without a list makes none. -/
theorem isSome_list?_attachAll {bs : List (Branch (Block R S))} (hbs : ∀ b ∈ bs, b.lists = [])
    (k : ListId) : ((d.attachAll l bs).2.tree.list? k).isSome = (d.tree.list? k).isSome := by
  induction bs generalizing d with
  | nil => rfl
  | cons b bs ih =>
    obtain ⟨hb, hrest⟩ := List.forall_mem_cons.mp hbs
    cases b with
    | node a ls =>
      obtain rfl : ls = [] := hb
      exact (ih hrest).trans (((d.tree.create a).2.simulates_pushBack l _).list k)

/-! ### In place -/

section

variable [Analytic R]

/-- The circles of a pattern made anew in place, one step after the other. -/
def renewHoles (id : NodeId) : ExceptT EditError (StateM (Document R S)) Unit := do
  let d ← getThe (Document R S)
  match d.get? id with
  | none => throw .unknownNode
  | some b =>
    match b.payload with
    | .boltHoles holes =>
      match d.children? id with
      | none => throw (.notAContainer .boltHoles)
      | some l =>
        modifyThe (Document R S) fun d => d.withTree (d.tree.destroyList l)
        holes.circles.forM fun a =>
          modifyThe (Document R S) fun d => (d.push l { payload := .arc a }).2
    | p => throw (.notAContainer p.kind)

section Run

variable {σ ε α β : Type} (s : σ)

theorem run_getThe_bind (f : σ → ExceptT ε (StateM σ) β) :
    (getThe σ >>= f).run.run s = (f s).run.run s := rfl

theorem run_forM_modify (f : σ → α → σ) (xs : List α) :
    (xs.forM fun a => modifyThe σ (f · a) : ExceptT ε (StateM σ) PUnit).run.run s =
      (.ok (), xs.foldl f s) := by
  induction xs generalizing s with
  | nil => rfl
  | cons x xs ih => exact ih (f s x)

end Run

/-- **In place, what is refused changes nothing,** and what is not ends in the document that is
returned. -/
theorem run_renewHoles (d : Document R S) (id : NodeId) :
    (renewHoles id).run.run d =
      match d.rebuildBoltHoles id with
      | .error err => (.error err, d)
      | .ok e => (.ok (), e) := by
  rw [renewHoles, run_getThe_bind, rebuildBoltHoles]
  cases d.get? id with
  | none => rfl
  | some b =>
    obtain ⟨payload, -, -, -, -⟩ := b
    cases payload with
    | boltHoles holes =>
      cases d.children? id with
      | none => rfl
      | some l => exact run_forM_modify _ _ holes.circles
    | _ => rfl

/-! ### What is left -/

/-- The second document is the first one with the circles of a pattern made anew. -/
structure Renewed (d e : Document R S) (id : NodeId) (holes : BoltHoles R) (l : ListId) :
    Prop where
  /-- Nothing but the tree is touched. -/
  settings : e = d.withTree e.tree
  /-- The pattern is as it was, -/
  pattern : e.get? id = d.get? id
  /-- with the same list. -/
  children : e.children? id = some l
  /-- In this list there is the circle of each hole, and nowhere else anything else. -/
  refilled : d.tree.Refilled e.tree l (holes.centers.map holes.circleAt)

/-- The payloads of the children are the circles, whatever was there before. -/
theorem Renewed.payloads {holes : BoltHoles R} (h : d.Renewed e id holes l) :
    (e.tree.members l).map e.payload? = holes.circles.map fun a => some (.arc a) := by
  have hitems : (e.tree.members l).map e.get? = _ := h.refilled.items
  have hpayload : e.payload? = Option.map Block.payload ∘ e.get? := rfl
  rw [hpayload, ← List.map_map, hitems, ← holes.map_circles, List.map_map, List.map_map]
  rfl

/-- **What is left where there is a pattern.** -/
theorem exists_renewed {b : Block R S} {holes : BoltHoles R} (hself : ¬ d.tree.links.BelowItself id)
    (hb : d.get? id = some b) (hp : b.payload = .boltHoles holes) (hl : d.children? id = some l) :
    ∃ e, d.rebuildBoltHoles id = .ok e ∧ ¬ e.tree.links.BelowItself id ∧
      d.Renewed e id holes l := by
  obtain ⟨-, -, halive, -⟩ :=
    Tree.kept_destroyList (contains_of_get? hb) hself (List.mem_of_mem_head? hl)
  obtain ⟨hshrinks, hloses, hempty⟩ := Tree.loses_destroyList d.tree l
  let cleared := d.withTree (d.tree.destroyList l)
  let branches : List (Branch (Block R S)) := (holes.centers.map holes.circleAt).map bare
  have hleaf : ∀ c ∈ branches, c.lists = [] := by
    intro c hc
    obtain ⟨a, ha, rfl⟩ := List.mem_map.mp hc
    obtain ⟨center, -, rfl⟩ := List.mem_map.mp ha
    rfl
  have hlabels : branches.map Branch.label = holes.centers.map holes.circleAt := by
    rw [List.map_map]
    exact List.map_id _
  obtain ⟨e, he, heself, -⟩ := exists_rebuildBoltHoles hself hb hp hl
  obtain rfl : (cleared.attachAll l branches).2 = e := by
    rw [rebuildBoltHoles_of_pattern hb hp hl, holes.map_circles] at he
    exact Except.ok.inj he
  have hrefilled := (Tree.emptied_of_loses hshrinks hloses hempty).refill
    (cleared.adds_attachAll halive branches) hleaf (newer_attachAll cleared l branches)
    (isSome_list?_attachAll hleaf)
  have hnode := hrefilled.node id (contains_of_get? hb)
    (Tree.not_within hself (List.mem_of_mem_head? hl))
  refine ⟨_, he, heself, ?_⟩
  constructor
  case settings =>
    obtain ⟨t, ht⟩ := cleared.exists_attachAll l branches
    rw [ht]
    rfl
  case pattern => exact congrArg (Option.map TreeNode.item) hnode
  case children =>
    refine Eq.trans (congrArg (fun n => ((n.map TreeNode.lists).getD []).head?) hnode) hl
  case refilled => exact hlabels ▸ hrefilled

/-- **Making the circles of a pattern anew** is refused where there is no pattern with a list, and
then it changes nothing, in place as well. Elsewhere it leaves the circle of each hole in the list,
nothing of what was within it, and all else as it was; and doing it again leaves the same payloads.
The pattern must not be below itself, as nothing is in a document without cycles. -/
theorem rebuildBoltHoles_renews (hself : ¬ d.tree.links.BelowItself id) :
    (∃ err, d.rebuildBoltHoles id = .error err ∧ (renewHoles id).run.run d = (.error err, d) ∧
      (d.get? id = none ∧ err = .unknownNode ∨
        ∃ b, d.get? id = some b ∧ err = .notAContainer b.kind ∧
          (b.kind ≠ .boltHoles ∨ d.children? id = none))) ∨
    ∃ b holes l e, d.get? id = some b ∧ b.payload = .boltHoles holes ∧ d.children? id = some l ∧
      d.rebuildBoltHoles id = .ok e ∧ (renewHoles id).run.run d = (.ok (), e) ∧
      d.Renewed e id holes l ∧
      ∃ f, e.rebuildBoltHoles id = .ok f ∧ e.Renewed f id holes l ∧
        (f.tree.members l).map f.payload? = (e.tree.members l).map e.payload? := by
  have hrefused {err : EditError} (h : d.rebuildBoltHoles id = .error err) :
      (renewHoles id).run.run d = (.error err, d) := by rw [run_renewHoles, h]
  cases hb : d.get? id with
  | none =>
    have herr : d.rebuildBoltHoles id = .error .unknownNode := by simp only [rebuildBoltHoles, hb]
    exact .inl ⟨_, herr, hrefused herr, .inl ⟨rfl, rfl⟩⟩
  | some b =>
    by_cases hkind : b.kind = .boltHoles
    case neg =>
      have herr := rebuildBoltHoles_of_kind_ne hb hkind
      exact .inl ⟨_, herr, hrefused herr, .inr ⟨b, rfl, rfl, .inl hkind⟩⟩
    case pos =>
      cases hl : d.children? id with
      | none =>
        have herr := rebuildBoltHoles_of_childless hb hl
        exact .inl ⟨_, herr, hrefused herr, .inr ⟨b, rfl, rfl, .inr rfl⟩⟩
      | some l =>
        obtain ⟨holes, hp⟩ := Block.exists_of_kind_boltHoles hkind
        obtain ⟨e, he, heself, hrenewed⟩ := exists_renewed hself hb hp hl
        obtain ⟨f, hf, -, hagain⟩ :=
          exists_renewed heself (hrenewed.pattern.trans hb) hp hrenewed.children
        refine .inr ⟨b, holes, l, e, rfl, hp, rfl, he, ?_, hrenewed, f, hf, hagain, ?_⟩
        · rw [run_renewHoles, he]
        · rw [hagain.payloads, hrenewed.payloads]

end

section

open Exact

/-- A pattern of four holes in whose list there is a locked sketch with a circle in it, and a
template behind the pattern. -/
noncomputable def holesEdited : List (ListId × Block ℝ ℝ) :=
  [(⟨0⟩, { payload := .boltHoles BoltHoles.standard }),
    (⟨1⟩, { payload := .standard .sketch, flags := { locked := true } }),
    (⟨2⟩, { payload := .arc (Arc.circle Vec2.zero 1) }), (⟨0⟩, { payload := .standard .template })]

theorem rebuildBoltHoles_renews_holesEdited :
    let d : Document ℝ ℝ := (new "plate").pushEach holesEdited
    ¬ d.tree.links.BelowItself ⟨0⟩ ∧ d.tree.isLocked ⟨1⟩ = true ∧
      ∃ e, d.rebuildBoltHoles ⟨0⟩ = .ok e ∧ (renewHoles ⟨0⟩).run.run d = (.ok (), e) ∧
        e.tree.validate ⟨1⟩ = true ∧ (e.tree.members ⟨1⟩).length = 4 ∧
        e.tree.contains ⟨1⟩ = false ∧ e.tree.contains ⟨2⟩ = false ∧
        (e.tree.list? ⟨2⟩).isSome = false ∧ e.tree.members ⟨0⟩ = [⟨0⟩, ⟨3⟩] := by
  intro d
  have hacyclic : d.tree.links.Acyclic := acyclic_pushEach (acyclic_new _) (by decide +kernel)
  have hpattern : d.get? ⟨0⟩ = some { payload := .boltHoles BoltHoles.standard } := rfl
  refine ⟨hacyclic ⟨0⟩, rfl, ?_⟩
  obtain ⟨err, -, -, ⟨hnone, -⟩ | ⟨b, hb, -, hkind | hnone⟩⟩ |
    ⟨b, holes, l, e, hb, hp, hl, he, hrun, h, -⟩ := rebuildBoltHoles_renews (hacyclic ⟨0⟩)
  · cases hnone
  · obtain rfl := Option.some.inj (hpattern.symm.trans hb)
    exact absurd rfl hkind
  · cases hnone
  · obtain rfl := Option.some.inj (hpattern.symm.trans hb)
    obtain rfl : BoltHoles.standard = holes := Payload.boltHoles.inj hp
    obtain rfl : ⟨1⟩ = l := Option.some.inj hl
    have hsketch : d.tree.Within ⟨1⟩ ⟨1⟩ := ⟨⟨1⟩, List.mem_singleton_self _, 0, rfl⟩
    have hcircle : d.tree.Within ⟨1⟩ ⟨2⟩ :=
      ⟨⟨1⟩, List.mem_singleton_self _, 1, ⟨2⟩, ⟨_, ⟨2⟩, rfl, List.mem_singleton_self _,
        List.mem_singleton_self _⟩, rfl⟩
    have hroot : (e.tree.list? ⟨0⟩).isSome := (h.refilled.lists ⟨0⟩).mpr ⟨rfl, nofun⟩
    refine ⟨e, he, hrun, h.refilled.validate, ?_, h.refilled.gone hsketch, h.refilled.gone hcircle,
      ?_, (h.refilled.others ⟨0⟩ (by decide) hroot).2⟩
    · have hcount := congrArg List.length h.refilled.items
      rw [List.length_map] at hcount
      exact hcount
    · refine Bool.eq_false_iff.mpr fun hleft => ?_
      exact ((h.refilled.lists ⟨2⟩).mp hleft).2 ⟨1⟩ rfl hsketch

end

end Document

end Toolpath
