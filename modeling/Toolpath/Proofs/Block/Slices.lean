import Mathlib
import Toolpath.Block.Mesh
import Toolpath.Proofs.Number.Exact

/-!
# Slices of closed meshes

A plane divides the vertices of a triangle in two, and going once around the triangle one comes back
to the side where one began. So an even number of its three edges crosses the plane, whatever the
test says of each vertex. A vertex on the plane needs no rule of its own, and neither does one whose
height is no number.

That slices close is a statement about points, and so about arithmetic. Two triangles that share an
edge go along it in opposite directions, and the point where it crosses is computed from the one end
or from the other. In a field these points are equal. Every point of a slice is then counted once
for each triangle at an edge, and a mesh is closed if these are even in number. An edge that ends
where it begins crosses no plane, so nothing is asked of it.

## Main definitions

* `Mesh.below`, `Mesh.crossings` — the side of a vertex, and where a triangle crosses a plane
* `Mesh.endPoints` — the end points of segments
* `Mesh.Closed` — every pair of vertices is an edge an even number of times
* `Mesh.HasHeight` — one vertex lies above another

## Main results

* `Mesh.length_crossings` — a triangle crosses a plane twice or not at all
* `Mesh.edgeCrossing?_swap` — an edge crosses a plane where it does in the other direction
* `Mesh.even_count_endPoints` — every point ends an even number of segments of a section
* `Mesh.slices_closed` — both, for the slices of a mesh, and how many of them there are
-/

namespace Toolpath

/-- The vertices of a triangle. -/
def Triangle.vertices {S : Type} (t : Triangle S) : List (Vec3 S) := [t.a, t.b, t.c]

namespace Mesh

/-- The end points of segments. -/
def endPoints {R : Type} (segments : List (Vec2 R × Vec2 R)) : List (Vec2 R) :=
  segments.flatMap fun s => [s.1, s.2]

section

variable {R : Type} [Scalar R] (z : R)

/-! ### One triangle -/

/-- Whether a vertex lies below a plane, as the sign of its distance says. -/
def below (v : Vec3 R) : Bool := decide (v.z - z < 0)

theorem below_congr {u v : Vec3 R} (h : u.z - z = v.z - z) : below z u = below z v :=
  congrArg (fun d => decide (d < 0)) h

/-- Where the edges of a triangle cross a plane. -/
def crossings (t : Triangle R) : List (Vec2 R) := t.edges.filterMap fun e => edgeCrossing? z e.1 e.2

theorem isSome_edgeCrossing? (a b : Vec3 R) :
    (edgeCrossing? z a b).isSome = (below z a != below z b) := by
  rw [edgeCrossing?, below, below]
  cases (decide (a.z - z < 0) != decide (b.z - z < 0)) <;> rfl

/-- The crossings are counted by comparing the sides of the vertices around the triangle. -/
theorem length_crossings_eq (t : Triangle R) : (crossings z t).length =
    (below z t.a != below z t.b).toNat + (below z t.b != below z t.c).toNat +
      (below z t.c != below z t.a).toNat := by
  have hcount (e : Vec3 R × Vec3 R) :
      (edgeCrossing? z e.1 e.2).toList.length = (below z e.1 != below z e.2).toNat := by
    rw [← isSome_edgeCrossing?]
    cases edgeCrossing? z e.1 e.2 <;> rfl
  rw [crossings, List.filterMap_eq_flatMap_toList, List.length_flatMap, Triangle.edges]
  simp only [List.map_cons, List.map_nil, List.sum_cons, List.sum_nil, hcount, Nat.add_assoc,
    Nat.add_zero]

/-- **A triangle crosses a plane twice or not at all.** -/
theorem length_crossings (t : Triangle R) :
    (crossings z t).length = 0 ∨ (crossings z t).length = 2 := by
  rw [length_crossings_eq]
  cases below z t.a <;> cases below z t.b <;> cases below z t.c <;> decide

/-- The end points of the section of a triangle are where its edges cross. -/
theorem endPoints_crossSection? (t : Triangle R) :
    endPoints (crossSection? z t).toList = crossings z t := by
  rw [crossSection?]
  rcases length_crossings z t with hnone | htwo
  · have hpoints := List.eq_nil_of_length_eq_zero hnone
    rw [crossings] at hpoints ⊢
    rw [hpoints]
    rfl
  · obtain ⟨p, q, hpoints⟩ := List.length_eq_two.mp htwo
    rw [crossings] at hpoints ⊢
    rw [hpoints]
    rfl

/-- **A triangle has a section** unless its vertices are all on one side. -/
theorem isSome_crossSection?_iff (t : Triangle R) :
    (crossSection? z t).isSome ↔ ¬ ∃ side, ∀ v ∈ t.vertices, below z v = side := by
  have hends := congrArg List.length (endPoints_crossSection? z t)
  rw [length_crossings_eq] at hends
  have hsome : (crossSection? z t).isSome ↔ (endPoints (crossSection? z t).toList).length ≠ 0 := by
    cases crossSection? z t <;> simp [endPoints]
  rw [hsome, hends]
  simp only [Triangle.vertices, List.forall_mem_cons]
  cases below z t.a <;> cases below z t.b <;> cases below z t.c <;> simp

/-- The end points of the sections of triangles are where their edges cross. -/
theorem endPoints_filterMap (ts : List (Triangle R)) :
    endPoints (ts.filterMap (crossSection? z)) =
      (ts.flatMap Triangle.edges).filterMap fun e => edgeCrossing? z e.1 e.2 := by
  rw [endPoints, List.filterMap_eq_flatMap_toList, List.flatMap_assoc, List.filterMap_flatMap]
  exact List.flatMap_congr fun t _ => endPoints_crossSection? z t

end

/-! ### Closed meshes -/

/-- Where a function is defined for nothing but what comes an even number of times, every value
comes an even number of times. -/
theorem even_count_filterMap {α β : Type} [DecidableEq α] [DecidableEq β] {f : α → Option β}
    {xs : List α} (h : ∀ x, f x ≠ none → Even (xs.count x)) (b : β) :
    Even ((xs.filterMap f).count b) := by
  have hcount : (xs.filterMap f).count b =
      (xs.map fun x => if f x == some b then 1 else 0).sum := by
    rw [List.count_filterMap]
    clear h
    induction xs with
    | nil => rfl
    | cons x xs ih => rw [List.countP_cons, List.map_cons, List.sum_cons, ih, Nat.add_comm]
  rw [hcount, Finset.sum_list_map_count]
  refine Finset.even_sum _ fun x _ => ?_
  by_cases hx : f x = some b
  · rw [if_pos (by simpa using hx), smul_eq_mul, Nat.mul_one]
    exact h x (by rw [hx]; exact Option.some_ne_none b)
  · rw [if_neg (by simpa using hx), smul_zero]
    exact Even.zero

/-- The edges of triangles, whichever way they are gone along. -/
def pairs {R : Type} (ts : List (Triangle R)) : List (Sym2 (Vec3 R)) :=
  (ts.flatMap Triangle.edges).map fun e => s(e.1, e.2)

/-- Every two vertices are the ends of an edge an even number of times. -/
def Closed {R : Type} [DecidableEq R] (ts : List (Triangle R)) : Prop :=
  ∀ u v : Vec3 R, u ≠ v → Even ((pairs ts).count s(u, v))

/-- Only the edges need to be counted. -/
theorem closed_iff {R : Type} [DecidableEq R] (ts : List (Triangle R)) :
    Closed ts ↔
      ∀ e ∈ ts.flatMap Triangle.edges, e.1 ≠ e.2 → Even ((pairs ts).count s(e.1, e.2)) := by
  refine ⟨fun h e _ => h e.1 e.2, fun h u v huv => ?_⟩
  by_cases hmem : s(u, v) ∈ pairs ts
  · obtain ⟨e, he, heq⟩ := List.mem_map.mp hmem
    have hne : e.1 ≠ e.2 := fun hloop => huv (Sym2.mk_isDiag_iff.mp
      (heq ▸ Sym2.mk_isDiag_iff.mpr hloop))
    exact heq ▸ h e he hne
  · rw [List.count_eq_zero_of_not_mem hmem]
    exact Even.zero

instance {R : Type} [DecidableEq R] (ts : List (Triangle R)) : Decidable (Closed ts) :=
  decidable_of_iff _ (closed_iff ts).symm

section

open Exact

variable {K : Type} [Field K] [LinearOrder K] [FloorRing K]

/-- A point between two others is reached from either, if the parts make up the whole. -/
theorem interpolate_swap {da db : K} (h : da ≠ db) (a b : K) :
    a + da / (da - db) * (b - a) = b + db / (db - da) * (a - b) := by
  have hleft : da - db ≠ 0 := sub_ne_zero.mpr h
  have hright : db - da ≠ 0 := sub_ne_zero.mpr h.symm
  field_simp
  ring

/-- **An edge crosses a plane where it does in the other direction.** Its ends are on different
sides, so their distances differ. -/
theorem edgeCrossing?_swap (z : K) (a b : Vec3 K) :
    edgeCrossing? z a b = edgeCrossing? z b a := by
  by_cases hsides : below z a = below z b
  · have hnone (u v : Vec3 K) (h : below z u = below z v) : edgeCrossing? z u v = none := by
      rw [← Option.not_isSome_iff_eq_none, isSome_edgeCrossing?, h, bne_self_eq_false]
      exact Bool.false_ne_true
    rw [hnone a b hsides, hnone b a hsides.symm]
  · have hne : a.z - z ≠ b.z - z := fun h => hsides (below_congr z h)
    have hsome (u v : Vec3 K) (h : below z u ≠ below z v) : edgeCrossing? z u v =
        some ⟨u.x + (u.z - z) / (u.z - z - (v.z - z)) * (v.x - u.x),
          u.y + (u.z - z) / (u.z - z - (v.z - z)) * (v.y - u.y)⟩ :=
      if_pos (bne_iff_ne.mpr h)
    rw [hsome a b hsides, hsome b a (Ne.symm hsides)]
    exact congrArg some (congrArg₂ Vec2.mk (interpolate_swap hne a.x b.x)
      (interpolate_swap hne a.y b.y))

/-- An edge that ends where it begins crosses no plane. -/
theorem edgeCrossing?_self (z : K) (a : Vec3 K) : edgeCrossing? z a a = none := by
  rw [edgeCrossing?, bne_self_eq_false, if_neg Bool.false_ne_true]

/-- Where an edge crosses a plane, whichever way it is gone along. -/
def crossing? (z : K) : Sym2 (Vec3 K) → Option (Vec2 K) :=
  Sym2.lift ⟨edgeCrossing? z, edgeCrossing?_swap z⟩

/-- **The section of a closed mesh is closed**: every point is an end point of its segments an even
number of times. -/
theorem even_count_endPoints {ts : List (Triangle K)} (h : Closed ts) (z : K) (p : Vec2 K) :
    Even ((endPoints (ts.filterMap (crossSection? z))).count p) := by
  have hends : endPoints (ts.filterMap (crossSection? z)) = (pairs ts).filterMap (crossing? z) := by
    rw [endPoints_filterMap, pairs, List.filterMap_map]
    rfl
  rw [hends]
  refine even_count_filterMap (fun pair => ?_) p
  induction pair using Sym2.ind with
  | h u v =>
    intro hcrosses
    refine h u v fun heq => hcrosses ?_
    rw [heq]
    exact edgeCrossing?_self z v

/-! ### The number of slices -/

/-- The extent of some heights is their least and their greatest. -/
theorem extent?_cons (z : K) (zs : List K) :
    extent? (z :: zs) = some (zs.foldl min z, zs.foldl max z) := by
  have hfold (zs : List K) (r : K × K) :
      zs.foldl (fun r z => (Scalar.lesser r.1 z, Scalar.greater r.2 z)) r =
        (zs.foldl min r.1, zs.foldl max r.2) := by
    induction zs generalizing r with
    | nil => rfl
    | cons z zs ih =>
      rw [List.foldl_cons, ih, lesser_eq, greater_eq]
      rfl
  exact congrArg some (hfold zs (z, z))

theorem extent?_spec {zs : List K} {lo hi : K} (h : extent? zs = some (lo, hi)) :
    (lo ∈ zs ∧ ∀ z ∈ zs, lo ≤ z) ∧ (hi ∈ zs ∧ ∀ z ∈ zs, z ≤ hi) := by
  cases zs with
  | nil => cases h
  | cons z zs =>
    rw [extent?_cons] at h
    obtain ⟨rfl, rfl⟩ := Prod.mk.inj (Option.some.inj h)
    exact ⟨List.min?_eq_some_iff.mp List.min?_cons', List.max?_eq_some_iff.mp List.max?_cons'⟩

variable {S : Type} [Storage K S]

/-- The triangles of a mesh with the numbers that it is computed with. -/
def wide (m : Mesh K S) : List (Triangle K) := m.triangles.map (Triangle.map Storage.widen)

/-- One vertex of a mesh lies above another. -/
def HasHeight (m : Mesh K S) : Prop :=
  ∃ u ∈ m.wide.flatMap Triangle.vertices, ∃ v ∈ m.wide.flatMap Triangle.vertices, u.z < v.z

instance (m : Mesh K S) : Decidable m.HasHeight :=
  inferInstanceAs (Decidable (∃ u ∈ m.wide.flatMap Triangle.vertices,
    ∃ v ∈ m.wide.flatMap Triangle.vertices, u.z < v.z))

theorem zRange?_eq (m : Mesh K S) :
    m.zRange? = extent? ((m.wide.flatMap Triangle.vertices).map Vec3.z) := by
  rw [zRange?, wide, List.map_flatMap, List.flatMap_map]
  rfl

/-- A mesh without triangles has no height. -/
theorem not_hasHeight_of_zRange?_eq_none {m : Mesh K S} (h : m.zRange? = none) :
    ¬ m.HasHeight := by
  rw [zRange?_eq] at h
  rintro ⟨u, hu, -⟩
  have hz := List.mem_map_of_mem (f := Vec3.z) hu
  generalize (m.wide.flatMap Triangle.vertices).map Vec3.z = zs at h hz
  cases hz <;> cases h

variable [IsStrictOrderedRing K]

/-- A mesh has height if its top is above its bottom. -/
theorem hasHeight_iff {m : Mesh K S} {lo hi : K} (h : m.zRange? = some (lo, hi)) :
    m.HasHeight ↔ ¬ hi - lo ≤ 0 := by
  rw [zRange?_eq] at h
  obtain ⟨⟨hlo, hleast⟩, hhi, hgreatest⟩ := extent?_spec h
  rw [not_le, sub_pos]
  constructor
  · rintro ⟨u, hu, v, hv, huv⟩
    calc
      lo ≤ u.z := hleast _ (List.mem_map_of_mem hu)
      _ < v.z := huv
      _ ≤ hi := hgreatest _ (List.mem_map_of_mem hv)
  · intro hlt
    obtain ⟨u, hu, rfl⟩ := List.mem_map.mp hlo
    obtain ⟨v, hv, rfl⟩ := List.mem_map.mp hhi
    exact ⟨u, hu, v, hv, hlt⟩

/-- **A mesh without height** has no slices. -/
theorem slicesOf_of_not_hasHeight {m : Mesh K S} (h : ¬ m.HasHeight) : m.slicesOf = [] := by
  rw [slicesOf]
  cases hrange : m.zRange? with
  | none => rfl
  | some range =>
    have hflat := not_not.mp (mt (hasHeight_iff hrange).mpr h)
    exact if_pos (zero_eq (K := K) ▸ hflat)

/-- **The slices of a mesh with height** are cut by planes, as many as asked for up to the most
there may be. -/
theorem slicesOf_of_hasHeight {m : Mesh K S} (h : m.HasHeight) : ∃ lo hi,
    m.slicesOf = (List.range' 1 (min m.slices.toNat maxSlices)).map
      (sliceAt m.wide hi (hi - lo) (min m.slices.toNat maxSlices)) := by
  rw [slicesOf]
  cases hrange : m.zRange? with
  | none => exact absurd h (not_hasHeight_of_zRange?_eq_none hrange)
  | some range =>
    have hhigh := (hasHeight_iff hrange).mp h
    exact ⟨range.1, range.2, if_neg (zero_eq (K := K) ▸ hhigh)⟩

/-- Every slice is the section of the mesh with a plane. -/
theorem exists_segments_eq {m : Mesh K S} {s : Slice K} (hs : s ∈ m.slicesOf) :
    ∃ plane, s.segments = m.wide.filterMap (crossSection? plane) := by
  by_cases hheight : m.HasHeight
  · obtain ⟨lo, hi, hslices⟩ := slicesOf_of_hasHeight hheight
    rw [hslices] at hs
    obtain ⟨i, -, rfl⟩ := List.mem_map.mp hs
    exact ⟨_, rfl⟩
  · rw [slicesOf_of_not_hasHeight hheight] at hs
    cases hs

/-- **Slices of a closed mesh are closed.** For any numbers, a triangle crosses a plane twice or not
at all, and it has a section unless its vertices are all on one side. In exact arithmetic, the
slices of a mesh are its sections with planes; every point ends an even number of segments of each
if the mesh is closed; and there are as many slices as asked for, up to the most there may be, or
none if the mesh has no height. -/
theorem slices_closed {R : Type} [Scalar R] (m : Mesh K S) :
    (∀ (z : R) (t : Triangle R),
      ((crossings z t).length = 0 ∨ (crossings z t).length = 2) ∧
      ((crossSection? z t).isSome ↔ ¬ ∃ side, ∀ v ∈ t.vertices, below z v = side)) ∧
    (∀ s ∈ m.rebuild.contours,
      (∃ plane, s.segments = m.wide.filterMap (crossSection? plane)) ∧
      (Closed m.wide → ∀ p, Even ((endPoints s.segments).count p))) ∧
    (m.HasHeight → m.rebuild.contours.length = min m.slices.toNat maxSlices) ∧
    (¬ m.HasHeight → m.rebuild.contours = []) := by
  refine ⟨fun z t => ⟨length_crossings z t, isSome_crossSection?_iff z t⟩, ?_, ?_,
    slicesOf_of_not_hasHeight⟩
  · intro s hs
    obtain ⟨plane, hplane⟩ := exists_segments_eq hs
    refine ⟨⟨plane, hplane⟩, fun hclosed p => ?_⟩
    rw [hplane]
    exact even_count_endPoints hclosed plane p
  · intro hheight
    obtain ⟨lo, hi, hslices⟩ := slicesOf_of_hasHeight hheight
    rw [rebuild, hslices, List.length_map, List.length_range']

/-- A corner of a cube in two slices, and a triangle that lies flat. -/
theorem slices_closed_corner :
    let o : Vec3 ℚ := ⟨0, 0, 0⟩
    let a : Vec3 ℚ := ⟨1, 0, 0⟩
    let b : Vec3 ℚ := ⟨0, 1, 0⟩
    let c : Vec3 ℚ := ⟨0, 0, 1⟩
    let corner : Mesh ℚ ℚ := ⟨[⟨o, b, a⟩, ⟨o, a, c⟩, ⟨a, b, c⟩, ⟨b, o, c⟩], 2, []⟩
    let flat : Mesh ℚ ℚ := ⟨[⟨o, a, b⟩], 2, []⟩
    (Closed corner.wide ∧
      ∀ s ∈ corner.rebuild.contours, ∀ p, Even ((endPoints s.segments).count p)) ∧
    (corner.HasHeight ∧ corner.rebuild.contours.length = 2) ∧
    ¬ flat.HasHeight ∧ flat.rebuild.contours = [] := by
  intro o a b c corner flat
  have hclosed : Closed corner.wide := by decide +kernel
  have hheight : corner.HasHeight := by decide +kernel
  have hflat : ¬ flat.HasHeight := by decide +kernel
  obtain ⟨-, heven, hcount, -⟩ := slices_closed (R := Double) corner
  obtain ⟨-, -, -, hnone⟩ := slices_closed (R := Double) flat
  exact ⟨⟨hclosed, fun s hs => (heven s hs).2 hclosed⟩, ⟨hheight, hcount hheight⟩, hflat,
    hnone hflat⟩

end

end Mesh

end Toolpath
