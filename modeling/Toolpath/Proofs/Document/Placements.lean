import Mathlib.Analysis.SpecialFunctions.Trigonometric.Basic
import Toolpath.Proofs.Document.Acyclic
import Toolpath.Proofs.Document.Loops
import Toolpath.Proofs.Document.Scoping
import Toolpath.Proofs.Number.Exact
import Toolpath.Proofs.Tree.Relabeling

/-!
# Placements in exact arithmetic

A block inside templates is placed by all of them. Its motion is put together on the way outward:
each template is applied to what those inside it have made. In the reals, with the real sine and
cosine, one such motion after another is again a turn and then a translation, so what is put
together moves a point as the templates do, one after the other from the inside out.

The compensation for the cutter comes from the nearest sketch around a block. The templates between
the two have no part in it.

## Main definitions

* `Template.carry` — where a template puts a point of its children
* `Document.carry` — where a block puts a point of what is inside it

## Main results

* `Motion.point_after` — one motion after another
* `Document.point_placement` — a placement moves a point as the templates do
* `Document.composes_around` — what the search for a placement finds
-/

namespace Toolpath

open Exact

variable {S : Type}

/-! ### Motions -/

theorem Motion.point_eq (m : Motion ℝ) (p : Vec2 ℝ) :
    m.point p =
      ⟨p.x * Real.cos (m.rotation * Real.pi / 180) - p.y * Real.sin (m.rotation * Real.pi / 180) +
          m.origin.x,
        p.x * Real.sin (m.rotation * Real.pi / 180) + p.y * Real.cos (m.rotation * Real.pi / 180) +
          m.origin.y⟩ := by
  rw [mul_div_assoc]
  rfl

theorem Motion.point_identity (p : Vec2 ℝ) : (Motion.identity : Motion ℝ).point p = p := by
  have hzero : (Motion.identity : Motion ℝ).rotation = 0 := zero_eq
  have hx : (Motion.identity : Motion ℝ).origin.x = 0 := zero_eq
  have hy : (Motion.identity : Motion ℝ).origin.y = 0 := zero_eq
  rw [point_eq, hzero, hx, hy]
  simp

/-- **One motion after another** moves a point by the one and then by the other. -/
theorem Motion.point_after (outer inner : Motion ℝ) (p : Vec2 ℝ) :
    (outer.after inner).point p = outer.point (inner.point p) := by
  have hangle : Analytic.radians (outer.rotation + inner.rotation) =
      Analytic.radians outer.rotation + Analytic.radians inner.rotation := add_mul ..
  have hcos (a b : ℝ) : Analytic.cos (a + b) =
      Analytic.cos a * Analytic.cos b - Analytic.sin a * Analytic.sin b := Real.cos_add a b
  have hsin (a b : ℝ) : Analytic.sin (a + b) =
      Analytic.sin a * Analytic.cos b + Analytic.cos a * Analytic.sin b := Real.sin_add a b
  simp only [point, after, direction, Vec2.rotate, hangle, hcos, hsin]
  refine congrArg₂ Vec2.mk ?_ ?_ <;> simp only [Vec2.add_x, Vec2.add_y] <;> ring

/-- Where a template puts a point of its children: turned about the origin, then translated. -/
noncomputable def Template.carry (t : Template ℝ) (p : Vec2 ℝ) : Vec2 ℝ :=
  let θ := t.rotation * Real.pi / 180
  ⟨p.x * Real.cos θ - p.y * Real.sin θ + t.position.x,
    p.x * Real.sin θ + p.y * Real.cos θ + t.position.y⟩

theorem Template.carry_eq (t : Template ℝ) (p : Vec2 ℝ) : t.carry p = t.motion.point p :=
  (Motion.point_eq t.motion p).symm

/-- Where a block puts a point of what is inside it. Only templates move anything. -/
noncomputable def Block.carry (b : Block ℝ S) (p : Vec2 ℝ) : Vec2 ℝ :=
  match b.payload with
  | .template t => t.carry p
  | _ => p

theorem Block.carry_eq (b : Block ℝ S) (p : Vec2 ℝ) :
    b.carry p = (b.motion?.map (·.point p)).getD p := by
  rw [carry, motion?]
  cases b.payload with
  | template t => exact t.carry_eq p
  | _ => rfl

/-- Another template in the place of the one that there is. Another payload stays. -/
def Payload.withTemplate {R : Type} (t : Template R) : Payload R S → Payload R S
  | .template _ => .template t
  | p => p

/-- A block with another template, if it is one. -/
def Block.withTemplate {R : Type} (b : Block R S) (t : Template R) : Block R S :=
  { b with payload := b.payload.withTemplate t }

theorem Block.tool?_withTemplate {R : Type} (b : Block R S) (t : Template R) :
    (b.withTemplate t).tool? = b.tool? := by
  unfold tool?
  rw [withTemplate]
  cases b.payload <;> rfl

theorem Block.sketch?_withTemplate {R : Type} (b : Block R S) (t : Template R) :
    (b.withTemplate t).sketch? = b.sketch? := by
  unfold sketch?
  rw [withTemplate]
  cases b.payload <;> rfl

namespace Document

variable {R : Type}

/-- The sketch of a block, if it is one. -/
def sketch? (d : Document R S) (id : NodeId) : Option (Sketch R) := (d.get? id).bind Block.sketch?

/-- Where the block with a name puts a point of what is inside it. -/
noncomputable def carry (d : Document ℝ S) (p : Vec2 ℝ) (id : NodeId) : Vec2 ℝ :=
  match d.get? id with
  | some b => b.carry p
  | none => p

variable {d : Document ℝ S} {x : NodeId}

/-- The template, if there is one, moves the point. -/
theorem carry_eq (d : Document ℝ S) (p : Vec2 ℝ) (x : NodeId) :
    d.carry p x = (((d.get? x).bind Block.motion?).map (·.point p)).getD p := by
  rw [carry]
  cases d.get? x with
  | none => rfl
  | some b => exact b.carry_eq p

/-- **The motion put together from templates** moves a point as they do, one after the other. -/
theorem point_motionThrough (ids : List NodeId) (p : Vec2 ℝ) :
    (d.motionThrough ids).point p = ids.foldl d.carry p := by
  rw [motionThrough, List.foldl_filterMap]
  conv_rhs => rw [← Motion.point_identity p]
  refine (List.foldl_hom (fun m : Motion ℝ => m.point p) fun m a => ?_).symm
  rw [carry_eq]
  cases (d.get? a).bind Block.motion? with
  | none => rfl
  | some outer => exact (Motion.point_after outer m p).symm

/-- A placement moves a point as the templates do. -/
theorem point_placement (x : NodeId) (p : Vec2 ℝ) :
    (d.placement x).point p = (d.tree.ancestors x).foldl d.carry p := by
  rw [← point_motionThrough]
  simp only [placement]
  split <;> rfl

/-! ### Compensation -/

theorem placement_of_sketch {s : NodeId} {data : Sketch ℝ}
    (hs : d.firstSketch? (d.tree.ancestors x) = some (s, data)) :
    d.placement x = ⟨d.motionThrough (d.tree.ancestors x), data.side.sign,
      ((d.findTool? s).map Tool.radius).getD 0⟩ := by
  simp only [placement, hs]
  simp only [zero_eq]

theorem placement_of_no_sketch (hs : d.firstSketch? (d.tree.ancestors x) = none) :
    d.placement x = ⟨d.motionThrough (d.tree.ancestors x), 0, 0⟩ := by
  simp only [placement, hs]
  simp only [zero_eq]

section

variable {d : Document R S} {f : Block R S → Block R S}

theorem firstSketch?_of_nearest {inside outside : List NodeId} {s : NodeId} {data : Sketch R}
    (hinside : ∀ a ∈ inside, d.sketch? a = none) (hs : d.sketch? s = some data) :
    d.firstSketch? (inside ++ s :: outside) = some (s, data) := by
  have hnone : d.firstSketch? inside = none :=
    List.findSome?_eq_none_iff.mpr fun a ha => by
      show (d.sketch? a).map _ = none
      rw [hinside a ha]; rfl
  have hsome : d.firstSketch? (s :: outside) = some (s, data) := by
    rw [firstSketch?_cons]
    show ((d.sketch? s).map _).or _ = _
    rw [hs]; rfl
  rw [firstSketch?, List.findSome?_append]
  show (d.firstSketch? inside).or (d.firstSketch? (s :: outside)) = _
  rw [hnone, hsome, Option.none_or]

theorem firstSketch?_of_none {ids : List NodeId} (h : ∀ a ∈ ids, d.sketch? a = none) :
    d.firstSketch? ids = none :=
  List.findSome?_eq_none_iff.mpr fun a ha => by
    show (d.sketch? a).map _ = none
    rw [h a ha]; rfl

/-- A change of a block that what is asked of it does not see. -/
theorem bind_get?_modify {β : Type} {g : Block R S → Option β} (hf : ∀ b, g (f b) = g b)
    (y x : NodeId) : ((d.modify y f).get? x).bind g = (d.get? x).bind g := by
  by_cases hx : x = y
  · rw [get?, get?, hx, modify, withTree, Tree.get?_modify_self, Option.bind_map]
    exact congrArg (Option.bind _) (funext hf)
  · rw [get?, get?, modify, withTree, Tree.get?_modify_of_ne _ _ _ hx]

theorem firstSketch?_modify (hf : ∀ b, (f b).sketch? = b.sketch?) (y : NodeId)
    (ids : List NodeId) : (d.modify y f).firstSketch? ids = d.firstSketch? ids :=
  findSome?_congr fun a _ => congrArg (Option.map _) (bind_get?_modify hf y a)

theorem findTool?_modify (hf : ∀ b, (f b).tool? = b.tool?) (y x : NodeId) :
    (d.modify y f).findTool? x = d.findTool? x := by
  have hlast (ids : List NodeId) : (d.modify y f).lastTool? ids = d.lastTool? ids :=
    findSome?_congr fun a _ => bind_get?_modify hf y a
  have hancestors : (d.modify y f).tree.ancestors x = d.tree.ancestors x :=
    Tree.ancestors_modify d.tree y f x
  rw [findTool?, findTool?, hancestors]
  refine findSome?_congr fun a _ => (hlast _).trans (congrArg d.lastTool? ?_)
  exact Tree.preceding_modify d.tree y f a

end

/-- Another template changes no compensation. -/
theorem compensation_withTemplate (y : NodeId) (t : Template ℝ) :
    ((d.modify y (·.withTemplate t)).placement x).side = (d.placement x).side ∧
      ((d.modify y (·.withTemplate t)).placement x).tool = (d.placement x).tool := by
  have hancestors : (d.modify y (·.withTemplate t)).tree.ancestors x = d.tree.ancestors x :=
    Tree.ancestors_modify ..
  have hfirst := firstSketch?_modify (d := d) (fun b => b.sketch?_withTemplate t) y
    (d.tree.ancestors x)
  cases hs : d.firstSketch? (d.tree.ancestors x) with
  | none =>
    rw [placement_of_no_sketch hs, placement_of_no_sketch (by rw [hancestors, hfirst, hs])]
    exact ⟨rfl, rfl⟩
  | some found =>
    obtain ⟨s, data⟩ := found
    rw [placement_of_sketch hs, placement_of_sketch (by rw [hancestors, hfirst, hs]),
      findTool?_modify fun b => b.tool?_withTemplate t]
    exact ⟨rfl, rfl⟩

/-- **A block inside templates is placed by all of them, from the inside out**: its placement moves
a point as they do, one after the other. It is compensated for the cutter as the nearest sketch
around it says, or not at all without one, and other templates do not change that. -/
theorem composes_around (h : d.tree.links.Acyclic) (x : NodeId) :
    Answers (d.searchPlacement · Placement.identity false x) (d.placement x) ∧
      (d.tree.ancestors x =
        match d.tree.parent? x with
        | none => []
        | some p => p :: d.tree.ancestors p) ∧
      (∀ p, (d.placement x).point p = (d.tree.ancestors x).foldl d.carry p) ∧
      (∀ inside s outside data, d.tree.ancestors x = inside ++ s :: outside →
        (∀ a ∈ inside, d.sketch? a = none) → d.sketch? s = some data →
        (d.placement x).side = data.side.sign ∧ Answers (d.searchTool · s) (d.findTool? s) ∧
          (d.placement x).tool = ((d.findTool? s).map Tool.radius).getD 0) ∧
      ((∀ a ∈ d.tree.ancestors x, d.sketch? a = none) →
        (d.placement x).side = 0 ∧ (d.placement x).tool = 0) ∧
      ∀ y t, ((d.modify y (·.withTemplate t)).placement x).side = (d.placement x).side ∧
        ((d.modify y (·.withTemplate t)).placement x).tool = (d.placement x).tool := by
  refine ⟨answers_searchPlacement h x, Tree.ancestors_eq h x, point_placement x, ?_, ?_,
    compensation_withTemplate⟩
  · intro inside s outside data haround hinside hs
    rw [placement_of_sketch (haround ▸ firstSketch?_of_nearest hinside hs)]
    exact ⟨rfl, answers_searchTool h s, rfl⟩
  · intro hnone
    rw [placement_of_no_sketch (firstSketch?_of_none hnone)]
    exact ⟨rfl, rfl⟩

/-- A tool change, and a template turned by a quarter with a sketch in it, and in this another
template with a line. -/
noncomputable def templatesNested : List (ListId × Block ℝ ℝ) :=
  [(⟨0⟩, { payload := .tool { Tool.standard with diameter := 6 } }),
    (⟨0⟩, { payload := .template ⟨⟨1, 0⟩, 90⟩ }), (⟨1⟩, { payload := .sketch ⟨1, 1, .left⟩ }),
    (⟨2⟩, { payload := .template ⟨⟨2, 0⟩, 0⟩ }), (⟨3⟩, { payload := .standard .line })]

theorem composes_around_templatesNested :
    let d : Document ℝ ℝ := (new "nested").pushEach templatesNested
    d.tree.links.Acyclic ∧ d.tree.ancestors ⟨4⟩ = [⟨3⟩, ⟨2⟩, ⟨1⟩] ∧
      (d.placement ⟨4⟩).point ⟨0, 0⟩ = ⟨1, 2⟩ ∧ (d.placement ⟨4⟩).side = 1 ∧
      (d.placement ⟨4⟩).tool = 3 := by
  intro d
  have hacyclic : d.tree.links.Acyclic := acyclic_pushEach (acyclic_new _) (by decide +kernel)
  have haround : d.tree.ancestors ⟨4⟩ = [⟨3⟩, ⟨2⟩, ⟨1⟩] := by decide +kernel
  have hsketch : d.sketch? ⟨2⟩ = some ⟨1, 1, .left⟩ := rfl
  have htemplate : d.sketch? ⟨3⟩ = none := rfl
  have htool : d.findTool? ⟨2⟩ = some { Tool.standard with diameter := 6 } := rfl
  obtain ⟨-, -, hmoves, hcompensation, -⟩ := composes_around hacyclic ⟨4⟩
  obtain ⟨hside, -, hradius⟩ := hcompensation [⟨3⟩] ⟨2⟩ [⟨1⟩] _ haround
    (List.forall_mem_singleton.mpr htemplate) hsketch
  have hinner (p : Vec2 ℝ) : d.carry p ⟨3⟩ = (⟨⟨2, 0⟩, 0⟩ : Template ℝ).carry p := rfl
  have hnothing (p : Vec2 ℝ) : d.carry p ⟨2⟩ = p := rfl
  have houter (p : Vec2 ℝ) : d.carry p ⟨1⟩ = (⟨⟨1, 0⟩, 90⟩ : Template ℝ).carry p := rfl
  refine ⟨hacyclic, haround, ?_, hside.trans one_eq, ?_⟩
  · rw [hmoves, haround, List.foldl_cons, List.foldl_cons, List.foldl_cons, List.foldl_nil, hinner,
      hnothing, houter]
    have hquarter : (90 : ℝ) * Real.pi / 180 = Real.pi / 2 := by ring
    simp [Template.carry, hquarter]
  · rw [hradius, htool]
    show (6 : ℝ) / 2 = 3
    norm_num

end Document

end Toolpath
