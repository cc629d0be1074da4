import Mathlib.Data.Rat.Floor
import Toolpath.Proofs.Block.Lengths
import Toolpath.Proofs.Document.Acyclic
import Toolpath.Proofs.Document.Loops
import Toolpath.Proofs.Stock.Solid
import Toolpath.Proofs.Tree.Duplicates
import Toolpath.Proofs.Tree.Relabeling

/-!
# Documents in other units

A document is converted by scaling every block of the top level with everything below it, and then
the stock. No block may be missed and none scaled twice. In a document without cycles the walk meets
each block below the top level once, since nothing is below two siblings.

In exact arithmetic the factor back is the inverse, so switching there and back restores every block
whose contours are derived. The stock is solid again.

## Main definitions

* `Tree.linked` — the nodes in a list and everything below them
* `Document.modifyEach` — blocks replaced one after the other
* `Document.convertTo` — the conversion as a walk, with fuel
* `Document.Converted` — a document with every linked block and the stock in other units

## Main results

* `Tree.nodup_linked`, `Tree.mem_linked_iff` — each node below a list once
* `Document.converted_setUnits` — what switching the unit does
* `Document.setUnits_setUnits` — switching there and back
-/

namespace Toolpath

/-! ### What is below a list -/

namespace Tree

open Links

variable {α : Type} {t : Tree α} {l : ListId} {x : NodeId}

/-- The nodes in a list and everything below them, each before those below it. -/
def linked (t : Tree α) (l : ListId) : List NodeId := (t.members l).flatMap t.subtree

/-- **No node is met twice** below a list. -/
theorem nodup_linked (h : t.links.Acyclic) (l : ListId) : (t.linked l).Nodup := by
  have hnames : t.linked l = (t.forest l).flatMap names := (flatMap_filterMap ..).symm
  have hsame (y : NodeId) (hy : y ∈ t.members l) : t.parent? y = t.owner? l := parent?_of_mem hy
  rw [hnames]
  refine nodup_of_siblings (t.sound.holds.nodup l) (fun y hy z hz => ?_) (fun _ _ p _ => h p)
    fun y _ b hb => nodup_branchTo hb fun _ z _ => h z
  rw [hsame y hy, hsame z hz]

/-- **Every node below a list is met.** -/
theorem mem_linked_iff (h : t.links.Acyclic) :
    x ∈ t.linked l ↔ ∃ top ∈ t.members l, ∃ levels, t.links.Descends levels top x := by
  rw [linked, List.mem_flatMap]
  refine exists_congr fun top => and_congr_right fun htop => ?_
  obtain ⟨b, hb, -⟩ := t.sound.exists_shows (t.sound.holds.alive l top htop).1 (h top)
  exact (comprises_subtree hb).mem_iff x

theorem linked_relabel (f : α → α) (t : Tree α) (l : ListId) :
    (t.relabel f).linked l = t.linked l := by
  have hsubtree : (t.relabel f).subtree = t.subtree := funext (subtree_relabel f t)
  rw [linked, members_relabel, hsubtree, linked]

end Tree

/-! ### Factors -/

section

open Exact

variable {K : Type} [Field K] [LinearOrder K] [FloorRing K]

theorem Units.inches_ne_zero [IsStrictOrderedRing K] (u : Units) : (u.inches : K) ≠ 0 := by
  cases u with
  | inch => simp only [inches, one_eq, ne_eq, one_ne_zero, not_false_eq_true]
  | millimeter =>
    simp only [inches, one_eq]
    norm_num

/-- The factor back is the inverse. -/
theorem Units.inches_back [IsStrictOrderedRing K] (u v : Units) :
    (u.inches : K) / v.inches * (v.inches / u.inches) = 1 := by
  rw [div_mul_div_cancel₀ v.inches_ne_zero, div_self u.inches_ne_zero]

theorem Material.scale_scale (m : Material K) (k j : K) :
    (m.scale k).scale j = m.scale (k * j) := by
  simp only [Material.scale, Vec3.scale, mul_assoc]

theorem Material.scale_one (m : Material K) : m.scale 1 = m := by
  simp only [Material.scale, Vec3.scale, mul_one]

end

namespace Document

variable {R S : Type} {d : Document R S} {x : NodeId}

/-! ### Blocks replaced one after the other -/

/-- Blocks replaced one after the other. -/
def modifyEach (d : Document R S) (f : Block R S → Block R S) (ids : List NodeId) : Document R S :=
  ids.foldl (fun d x => d.modify x f) d

section

variable {f g : Block R S → Block R S} {ids : List NodeId}

/-- What of a tree does not see the items does not see that blocks are replaced. -/
theorem unseen_modifyEach {β : Type} {F : Tree (Block R S) → β}
    (hF : ∀ f t, F (t.relabel f) = F t) (d : Document R S) (f : Block R S → Block R S)
    (ids : List NodeId) : F (d.modifyEach f ids).tree = F d.tree := by
  induction ids generalizing d with
  | nil => rfl
  | cons x ids ih => exact (ih (d.modify x f)).trans (Tree.unseen_modify hF d.tree x f)

theorem grows_modifyEach (d : Document R S) (f : Block R S → Block R S) (ids : List NodeId) :
    (d.modifyEach f ids).tree.links.Grows d.tree.links := by
  induction ids generalizing d with
  | nil => exact fun _ _ h => h
  | cons x ids ih =>
    exact fun y z h => Links.grows_modify d.tree.sound x f y z (ih (d.modify x f) y z h)

/-- Only the tree of a document is changed. -/
theorem modifyEach_eq (d : Document R S) (f : Block R S → Block R S) (ids : List NodeId) :
    d.modifyEach f ids = d.withTree (d.modifyEach f ids).tree := by
  induction ids generalizing d with
  | nil => rfl
  | cons x ids ih => exact ih (d.modify x f)

theorem tree_modifyEach_congr {e : Document R S} (h : e.tree = d.tree) :
    (e.modifyEach f ids).tree = (d.modifyEach f ids).tree := by
  induction ids generalizing d e with
  | nil => exact h
  | cons x ids ih => exact ih (congrArg (Tree.modify · x f) h)

theorem get?_modifyEach_of_not_mem (hx : x ∉ ids) : (d.modifyEach f ids).get? x = d.get? x := by
  induction ids generalizing d with
  | nil => rfl
  | cons y ids ih =>
    obtain ⟨hne, hx⟩ := List.ne_and_not_mem_of_not_mem_cons hx
    exact (ih hx).trans (Tree.get?_modify_of_ne d.tree y f hne)

/-- A block that is met once is replaced once. -/
theorem get?_modifyEach_of_mem (h : ids.Nodup) (hx : x ∈ ids) :
    (d.modifyEach f ids).get? x = (d.get? x).map f := by
  induction ids generalizing d with
  | nil => cases hx
  | cons y ids ih =>
    obtain ⟨hy, h⟩ := List.nodup_cons.mp h
    rcases List.mem_cons.mp hx with rfl | hx
    · exact (get?_modifyEach_of_not_mem hy).trans (Tree.get?_modify_self d.tree x f)
    · have hne : x ≠ y := fun he => hy (he ▸ hx)
      exact (ih h hx).trans (congrArg (Option.map f) (Tree.get?_modify_of_ne d.tree y f hne))

theorem modifyEach_eq_self (h : ∀ x ∈ ids, ∀ b, d.get? x = some b → f b = b) :
    d.modifyEach f ids = d := by
  induction ids with
  | nil => rfl
  | cons x ids ih =>
    have hself : d.modify x f = d :=
      congrArg d.withTree (Tree.modify_eq_self d.tree x f (h x List.mem_cons_self))
    show (d.modify x f).modifyEach f ids = d
    rw [hself]
    exact ih fun y hy => h y (List.mem_cons_of_mem x hy)

/-- A block that is not among them can be replaced before or after them. -/
theorem modifyEach_modify (hx : x ∉ ids) :
    (d.modifyEach f ids).modify x g = (d.modify x g).modifyEach f ids := by
  induction ids generalizing d with
  | nil => rfl
  | cons y ids ih =>
    obtain ⟨hne, hx⟩ := List.ne_and_not_mem_of_not_mem_cons hx
    have hcomm : (d.modify y f).modify x g = (d.modify x g).modify y f :=
      congrArg d.withTree (Tree.modify_comm (Ne.symm hne) d.tree f g)
    exact (ih hx).trans (congrArg (modifyEach · f ids) hcomm)

/-- Blocks that are met once can be replaced twice in one go. -/
theorem modifyEach_modifyEach (h : ids.Nodup) :
    (d.modifyEach f ids).modifyEach g ids = d.modifyEach (g ∘ f) ids := by
  induction ids generalizing d with
  | nil => rfl
  | cons x ids ih =>
    obtain ⟨hx, h⟩ := List.nodup_cons.mp h
    have hboth : (d.modify x f).modify x g = d.modify x (g ∘ f) :=
      congrArg d.withTree (Tree.modify_modify d.tree x f g)
    show (((d.modify x f).modifyEach f ids).modify x g).modifyEach g ids = _
    rw [modifyEach_modify hx, hboth]
    exact ih h

end

/-! ### The walk -/

section

variable [Scalar R] [Storage R S] {units : Units}

/-- The factor from the units of the document to other ones. -/
def factorTo (d : Document R S) (units : Units) : R := d.material.units.inches / units.inches

/-- The stock of a document in other units, and solid. -/
def convertStock (d : Document R S) (k : R) (units : Units) : Document R S :=
  { d with material := { d.material.scale k with units } }.rebuildVoxels

/-- The conversion of a document: the blocks of the top level one after the other, each with
everything below it, then the stock. -/
def convertTo (d : Document R S) (units : Units) (fuel : Nat) : Option (Document R S) :=
  if d.material.units = units then some d
  else
    ((d.tree.members d.root).foldlM (fun e x => scaleTo (d.factorTo units) fuel e x) d).map
      (·.convertStock (d.factorTo units) units)

theorem foldl_scale (d : Document R S) (k : R) (xs : List NodeId) :
    xs.foldl (fun e x => e.scale x k) d = d.modifyEach (·.scale k) (xs.flatMap d.tree.subtree) := by
  induction xs generalizing d with
  | nil => rfl
  | cons x xs ih =>
    have hsub : (d.scale x k).tree.subtree = d.tree.subtree :=
      unseen_modifyEach (fun f t => funext (Tree.subtree_relabel f t)) d (·.scale k) _
    rw [List.foldl_cons, ih, hsub, List.flatMap_cons]
    exact (List.foldl_append ..).symm

/-- Switching the unit scales every linked block, in the order of the walk, and then the stock. -/
theorem setUnits_eq (hne : units ≠ d.material.units) :
    d.setUnits units = (d.modifyEach (·.scale (d.factorTo units))
      (d.tree.linked d.root)).convertStock (d.factorTo units) units := by
  rw [setUnits, if_neg (Ne.symm hne)]
  exact congrArg (convertStock · (d.factorTo units) units) (foldl_scale d (d.factorTo units) _)

theorem setUnits_self (d : Document R S) : d.setUnits d.material.units = d := if_pos rfl

/-- **The walk ends**, with the document in the other units. -/
theorem answers_convertTo (h : d.tree.links.Acyclic) (units : Units) :
    Answers (d.convertTo units) (d.setUnits units) := by
  by_cases hsame : d.material.units = units
  · rw [setUnits, if_pos hsame]
    exact ⟨0, fun fuel _ => if_pos hsame⟩
  · let each (fuel : Nat) (e : Document R S) (x : NodeId) := scaleTo (d.factorTo units) fuel e x
    have hwalk : Answers (fun fuel => (d.tree.members d.root).foldlM (each fuel) d)
        (d.modifyEach (·.scale (d.factorTo units)) (d.tree.linked d.root)) := by
      have hends := Answers.foldlM (P := d.SamePlaces)
        (fun e y he => he.scaled (d.factorTo units) (d.tree.subtree y))
        (fun y hy e he => answers_scaleTo_of_places (d.factorTo units) (h y)
          (d.tree.sound.holds.alive d.root y hy).1 he) ⟨rfl, rfl⟩
      rwa [← List.foldl_flatMap] at hends
    obtain ⟨enough, hwalk⟩ := hwalk
    refine ⟨enough, fun fuel hfuel => ?_⟩
    rw [convertTo, if_neg hsame, setUnits_eq (Ne.symm hsame)]
    exact congrArg (Option.map _) (hwalk fuel hfuel)

/-! ### Every linked length once -/

/-- The second document is the first one in other units. -/
structure Converted (d e : Document R S) (units : Units) : Prop where
  /-- The walk meets the nodes in the top level and everything below them, -/
  mem_iff : ∀ x, x ∈ d.tree.linked d.root ↔
    ∃ top ∈ d.tree.members d.root, ∃ levels, d.tree.links.Descends levels top x
  /-- each of them once, -/
  nodup : (d.tree.linked d.root).Nodup
  /-- and scales one after the other by the same factor. -/
  walked : e.tree = (d.modifyEach (·.scale (d.factorTo units)) (d.tree.linked d.root)).tree
  /-- So a linked block is scaled once, -/
  scaled : ∀ x ∈ d.tree.linked d.root, e.get? x = (d.get? x).map (·.scale (d.factorTo units))
  /-- and another one is as it was. -/
  other : ∀ x, x ∉ d.tree.linked d.root → e.get? x = d.get? x
  /-- The lists have their members, -/
  members : e.tree.members = d.tree.members
  /-- the blocks their lists, -/
  childLists : e.tree.childLists = d.tree.childLists
  /-- the lists their owners. -/
  owner? : e.tree.owner? = d.tree.owner?
  /-- The lengths of the stock are multiplied once. -/
  material : e.material =
    { size := d.material.size.scale (d.factorTo units)
      origin := d.material.origin.scale (d.factorTo units)
      clearance := d.material.clearance * d.factorTo units
      kind := d.material.kind
      units }
  /-- Its field is new, with the resolution that the old one had. -/
  voxels : e.voxels = VoxelField.solid d.voxels.resolution e.material.size
  /-- The resolution is clamped, -/
  resolution : e.voxels.resolution = VoxelField.clampResolution d.voxels.resolution
  /-- and every cell is solid. -/
  solid : ∀ i j k, e.voxels.inside i j k → e.voxels.get? i j k = some 1
  /-- The name and the notes, the number and the machine stay, and so does the top level. -/
  settings : e.name = d.name ∧ e.notes = d.notes ∧ e.number = d.number ∧ e.machine = d.machine ∧
    e.root = d.root

/-- **Switching the unit** scales every linked block once, and the stock. -/
theorem converted_setUnits (h : d.tree.links.Acyclic) (hne : units ≠ d.material.units) :
    d.Converted (d.setUnits units) units := by
  have hnodup := Tree.nodup_linked h d.root
  rw [setUnits_eq hne, modifyEach_eq]
  exact {
    mem_iff := fun x => Tree.mem_linked_iff h
    nodup := hnodup
    walked := rfl
    scaled := fun x hx => get?_modifyEach_of_mem hnodup hx
    other := fun x hx => get?_modifyEach_of_not_mem hx
    members := unseen_modifyEach Tree.members_relabel d _ _
    childLists :=
      unseen_modifyEach (fun f t => funext (Tree.childLists_relabel f t)) d _ _
    owner? := unseen_modifyEach (fun f t => funext (Tree.owner?_relabel f t)) d _ _
    material := rfl
    voxels := rfl
    resolution := rfl
    solid := fun i j k hinside => VoxelField.get?_solid hinside
    settings := ⟨rfl, rfl, rfl, rfl, rfl⟩ }

/-- The blocks that are linked stay the same. -/
theorem Converted.linked {d e : Document R S} (h : d.Converted e units) :
    e.tree.linked e.root = d.tree.linked d.root := by
  obtain ⟨-, -, -, -, hroot⟩ := h.settings
  rw [hroot, h.walked]
  exact unseen_modifyEach (F := (Tree.linked · d.root)) (fun f t => t.linked_relabel f d.root)
    d _ _

end

/-! ### There and back -/

section

open Exact

variable {K : Type} [Field K] [LinearOrder K] [IsStrictOrderedRing K] [FloorRing K]
  {d e : Document K K} {units : Units}

/-- The factors there and back undo each other. -/
theorem Converted.factor_back (h : d.Converted e units) :
    d.factorTo units * e.factorTo d.material.units = 1 := by
  rw [factorTo, factorTo, h.material]
  exact Units.inches_back _ _

theorem Converted.material_back (h : d.Converted e units) :
    e.material.scale (e.factorTo d.material.units) = { d.material with units } := by
  have hsame : (d.material.scale (d.factorTo units)).scale (e.factorTo d.material.units) =
      d.material := by rw [Material.scale_scale, h.factor_back, Material.scale_one]
  rw [h.material]
  exact congrArg (fun m => { m with units }) hsame

/-- Scaled back, the blocks whose contours are derived are what they were. -/
theorem Converted.tree_back (h : d.Converted e units)
    (hderived : ∀ x ∈ d.tree.linked d.root, ∀ b, d.get? x = some b →
      b.payload.rebuild = b.payload) :
    (e.modifyEach (·.scale (e.factorTo d.material.units)) (d.tree.linked d.root)).tree =
      d.tree := by
  have hone (b : Block K K) : (b.scale (d.factorTo units)).scale (e.factorTo d.material.units) =
      b.scale 1 := by rw [Block.scale_scale, h.factor_back]
  rw [tree_modifyEach_congr h.walked, modifyEach_modifyEach h.nodup, modifyEach_eq_self]
  exact fun x hx b hb => (hone b).trans (Block.scale_one (hderived x hx b hb))

/-- **Switching there and back** restores every block whose contours are derived. -/
theorem setUnits_setUnits (h : d.tree.links.Acyclic) (hne : units ≠ d.material.units)
    (hderived : ∀ x ∈ d.tree.linked d.root, ∀ b, d.get? x = some b →
      b.payload.rebuild = b.payload) :
    (d.setUnits units).setUnits d.material.units =
      { d with voxels := VoxelField.solid d.voxels.resolution d.material.size } := by
  generalize he : d.setUnits units = e
  have hconverted : d.Converted e units := he ▸ converted_setUnits h hne
  have hunits : d.material.units ≠ e.material.units := by
    rw [hconverted.material]
    exact hne.symm
  obtain ⟨hname, hnotes, hnumber, hmachine, hroot⟩ := hconverted.settings
  rw [setUnits_eq hunits, hconverted.linked, modifyEach_eq, hconverted.tree_back hderived]
  simp only [convertStock, withTree, rebuildVoxels, hconverted.material_back,
    hconverted.resolution, VoxelField.solid_clampResolution, hname, hnotes, hnumber, hmachine,
    hroot]

/-- **Switching the unit** ends, and has scaled every block below the top level once and the stock,
where scaling a block is to multiply its lengths and nothing else. The unit that there is already
changes nothing. In exact arithmetic, switching there and back restores the blocks and the stock. -/
theorem converts_linked {R S K : Type} [Scalar R] [Storage R S] [Field K] [LinearOrder K]
    [IsStrictOrderedRing K] [FloorRing K] :
    (∀ (k : R) (b c : Block R S), b.Rescaled k c ↔ c = b.scale k) ∧
      (∀ d : Document R S, d.setUnits d.material.units = d) ∧
      (∀ (d : Document R S) (units : Units), d.tree.links.Acyclic →
        Answers (d.convertTo units) (d.setUnits units) ∧
          (units ≠ d.material.units → d.Converted (d.setUnits units) units)) ∧
      ∀ (d : Document K K) (units : Units), d.tree.links.Acyclic → units ≠ d.material.units →
        (∀ x ∈ d.tree.linked d.root, ∀ b, d.get? x = some b → b.payload.rebuild = b.payload) →
        (d.setUnits units).setUnits d.material.units =
          { d with voxels := VoxelField.solid d.voxels.resolution d.material.size } :=
  ⟨fun _ _ _ => Block.rescaled_iff, setUnits_self,
    fun _ units h => ⟨answers_convertTo h units, converted_setUnits h⟩,
    fun _ _ h => setUnits_setUnits h⟩

/-- A template with a sketch in it that has a line, and a mesh beside it. -/
def lengthsNested (R S : Type) [Scalar R] [Storage R S] : List (ListId × Block R S) :=
  let corner : Vec3 S := ⟨Storage.narrow (0 : R), Storage.narrow (0 : R), Storage.narrow (0 : R)⟩
  let top : Vec3 S := ⟨Storage.narrow (1 : R), Storage.narrow (2 : R), Storage.narrow (3 : R)⟩
  [(⟨0⟩, { payload := .standard .template, flags := ⟨true, true⟩ }),
    (⟨1⟩, { payload := .standard .sketch }), (⟨2⟩, { payload := .standard .line }),
    (⟨0⟩, { payload := .mesh (Mesh.ofTriangles [⟨corner, top, top⟩] 2) })]

theorem converts_linked_lengthsNested :
    let d : Document Double Single := (new "part").pushEach (lengthsNested Double Single)
    let e : Document ℚ ℚ := (new "part").pushEach (lengthsNested ℚ ℚ)
    d.tree.links.Acyclic ∧ d.tree.linked d.root = [⟨0⟩, ⟨1⟩, ⟨2⟩, ⟨3⟩] ∧
      d.Converted (d.setUnits .millimeter) .millimeter ∧
      e.tree.links.Acyclic ∧ e.tree.linked e.root = [⟨0⟩, ⟨1⟩, ⟨2⟩, ⟨3⟩] ∧
      (e.setUnits .millimeter).setUnits .inch =
        { e with voxels := VoxelField.solid e.voxels.resolution e.material.size } := by
  intro d e
  have hd : d.tree.links.Acyclic := acyclic_pushEach (acyclic_new _) (by decide +kernel)
  have he : e.tree.links.Acyclic := acyclic_pushEach (acyclic_new _) (by decide +kernel)
  obtain ⟨-, -, hconverts, hback⟩ := converts_linked (R := Double) (S := Single) (K := ℚ)
  have hlinked : e.tree.linked e.root = [⟨0⟩, ⟨1⟩, ⟨2⟩, ⟨3⟩] := by decide +kernel
  refine ⟨hd, by decide +kernel, (hconverts d .millimeter hd).2 (by decide), he, hlinked,
    hback e .millimeter he (by decide) fun x hx b hb => ?_⟩
  simp only [hlinked, List.mem_cons, List.not_mem_nil, or_false] at hx
  rcases hx with rfl | rfl | rfl | rfl <;> cases hb <;> rfl

end

end Document

end Toolpath
