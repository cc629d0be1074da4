import Toolpath.Proofs.Number.Exact
import Toolpath.Proofs.Stock.Carving

/-!
# The bounded search for cells against the full scan

A cutter is looked for in the bounding box of its cylinder only. Along each axis the box is cut out
by rounding: the first cell is found by rounding up and the last one by rounding down, after a shift
by half a cell, and both are moved into the grid. That this loses no cell is a fact of exact
arithmetic. There the cells between the first and the last are those whose centers lie in the
interval, and with the distance of the columns they are those whose centers lie in the cylinder.

What the cutter should clear is therefore said without any range: `InCylinder` compares the center
of a cell with the tip, and `scan` goes through the whole grid and clears a cell if its center lies
in the cylinder. A scan meets every cell once, so it counts the cells that were solid when it began.

The edges of a cell have to be positive. In a field, a quotient by zero is zero, so an axis without
cells has no such edge.

## Main definitions

* `VoxelField.Whole` — a byte for every cell, which says solid or cut
* `VoxelField.grid`, `VoxelField.center` — the cells of a field and their centers
* `Carve.InCylinder` — the center of a cell lies in the cylinder above a tip
* `Carve.scan` — the cells of a list that lie in the cylinder are cleared

## Main results

* `Carve.within_cellRange?` — the range holds the cells whose centers lie in the interval
* `Carve.covers_iff` — a cutter covers the cells in its cylinder
* `Carve.removed_scan` — a scan counts the cells that were solid
* `Carve.carve_grid` — the bounded search clears what a full scan clears
-/

namespace Toolpath

namespace VoxelField

variable {R : Type} {f g : VoxelField R} {S : Set (Vec3 Nat)}

/-! ### Whole fields -/

/-- There is a byte for every cell and no other, and it says that the cell is solid or that it is
cut. -/
structure Whole (f : VoxelField R) : Prop where
  /-- There is a byte for every cell. -/
  complete : f.Complete
  /-- A cell is cut or solid. -/
  binary : ∀ (c : Vec3 Nat) (b : UInt8), f.cell? c = some b → b = 0 ∨ b = 1

theorem whole_of_solidCells (h : f.cells = solidCells (cellCount f.counts)) : f.Whole := by
  have hdata : f.cells.data = Array.replicate (cellCount f.counts) 1 := by
    rw [h, data_solidCells]
  refine ⟨(congrArg Array.size hdata).trans Array.size_replicate, fun c b hb => .inr ?_⟩
  rw [cell?, get?, hdata, Array.getElem?_replicate] at hb
  split at hb
  · split at hb
    · exact (Option.some.inj hb).symm
    · cases hb
  · cases hb

/-- A field is whole when it is made. -/
theorem whole_solid [Scalar R] (resolution : UInt32) (size : Vec3 R) :
    (solid resolution size).Whole := by
  rw [solid_eq]
  exact whole_of_solidCells rfl

/-- A field is whole when it is made solid again. -/
theorem Whole.reset (hf : f.Whole) : f.reset.Whole :=
  whole_of_solidCells (congrArg solidCells hf.complete)

/-- **A field stays whole when cells are cut.** -/
theorem Whole.of_isCut (hf : f.Whole) (h : f.IsCut S g) : g.Whole where
  complete := hf.complete.of_sameGrid h.grid
  binary := fun c b hb => by
    rcases h.cell?_eq_or c with hkept | hcut
    · exact hf.binary c b (hkept.symm.trans hb)
    · exact .inl (Option.some.inj (hb.symm.trans hcut))

/-- Beside the grid there is nothing to cut. -/
theorem IsCut.congr {T : Set (Vec3 Nat)} (h : f.IsCut S g)
    (hsame : ∀ c : Vec3 Nat, f.inside c.x c.y c.z → (c ∈ S ↔ c ∈ T)) : f.IsCut T g := by
  have hnone (c : Vec3 Nat) (hc : ¬ f.inside c.x c.y c.z = true) :
      f.cell? c = none ∧ g.cell? c = none := by
    rw [cell?, cell?, get?, get?, inside_congr h.grid.counts, if_neg hc, if_neg hc]
    exact ⟨rfl, rfl⟩
  refine ⟨h.grid, fun c hT => ?_, fun c hT => ?_⟩
  · by_cases hc : f.inside c.x c.y c.z = true
    · exact h.cut c ((hsame c hc).mpr hT)
    · rw [(hnone c hc).1, (hnone c hc).2]
      rfl
  · by_cases hc : f.inside c.x c.y c.z = true
    · exact h.kept c fun hS => hT ((hsame c hc).mp hS)
    · rw [(hnone c hc).1, (hnone c hc).2]

/-- Every cell of a complete field has a value. -/
theorem Complete.exists_cell? (hf : f.Complete) {c : Vec3 Nat} (hc : f.inside c.x c.y c.z) :
    ∃ b, f.cell? c = some b := by
  have hlt : f.index c.x c.y c.z < f.cells.data.size :=
    Nat.lt_of_lt_of_eq (index_lt_cellCount hc) hf.symm
  exact ⟨_, by rw [cell?, get?, if_pos hc, Array.getElem?_eq_getElem hlt]⟩

/-- A cell is counted when it is cleared if it was solid. -/
theorem fst_clear (f : VoxelField R) (c : Vec3 Nat) :
    (f.clear c.x c.y c.z).1 = (f.cell? c).any (· != 0) := by
  rw [cell?, get?, clear]
  by_cases hc : f.inside c.x c.y c.z = true
  · rw [if_pos hc, if_pos hc]
    show (f.cells.data[f.index c.x c.y c.z]! != 0) = _
    by_cases hlt : f.index c.x c.y c.z < f.cells.data.size
    · rw [getElem!_pos f.cells.data _ hlt, Array.getElem?_eq_getElem hlt]
      rfl
    · rw [getElem!_neg f.cells.data _ hlt, Array.getElem?_eq_none (Nat.le_of_not_lt hlt)]
      rfl
  · rw [if_neg hc, if_neg hc]
    rfl

/-! ### All cells -/

/-- The cells of a field, row after row and layer after layer. -/
def grid (f : VoxelField R) : List (Vec3 Nat) :=
  (List.range f.counts.z).flatMap fun z =>
    (List.range f.counts.y).flatMap fun y => (List.range f.counts.x).map fun x => ⟨x, y, z⟩

theorem mem_grid_iff {c : Vec3 Nat} : c ∈ f.grid ↔ f.inside c.x c.y c.z = true := by
  rw [inside_iff]
  constructor
  · intro hc
    obtain ⟨z, hz, hc⟩ := List.mem_flatMap.mp hc
    obtain ⟨y, hy, hc⟩ := List.mem_flatMap.mp hc
    obtain ⟨x, hx, rfl⟩ := List.mem_map.mp hc
    exact ⟨List.mem_range.mp hx, List.mem_range.mp hy, List.mem_range.mp hz⟩
  · rintro ⟨hx, hy, hz⟩
    exact List.mem_flatMap.mpr ⟨c.z, List.mem_range.mpr hz, List.mem_flatMap.mpr
      ⟨c.y, List.mem_range.mpr hy, List.mem_map.mpr ⟨c.x, List.mem_range.mpr hx, rfl⟩⟩⟩

/-- No cell occurs twice. -/
theorem nodup_grid (f : VoxelField R) : f.grid.Nodup := by
  have hrow (y z : Nat) :
      ((List.range f.counts.x).map fun x => (⟨x, y, z⟩ : Vec3 Nat)).Nodup :=
    List.nodup_range.map fun _ _ h => congrArg Vec3.x h
  refine List.nodup_flatMap.mpr ⟨fun z _ => List.nodup_flatMap.mpr ⟨fun y _ => hrow y z, ?_⟩, ?_⟩
  · refine List.nodup_range.imp fun hne => ?_
    rw [Function.onFun, List.disjoint_left]
    intro c hc hc'
    obtain ⟨_, -, rfl⟩ := List.mem_map.mp hc
    obtain ⟨_, -, h⟩ := List.mem_map.mp hc'
    exact hne (congrArg Vec3.y h).symm
  · refine List.nodup_range.imp fun hne => ?_
    rw [Function.onFun, List.disjoint_left]
    intro c hc hc'
    obtain ⟨_, -, hc⟩ := List.mem_flatMap.mp hc
    obtain ⟨_, -, rfl⟩ := List.mem_map.mp hc
    obtain ⟨_, -, hc'⟩ := List.mem_flatMap.mp hc'
    obtain ⟨_, -, h⟩ := List.mem_map.mp hc'
    exact hne (congrArg Vec3.z h).symm

open Exact

variable {K : Type} [Field K] [LinearOrder K] [FloorRing K]

/-- The center of a cell in stock coordinates, which run from zero upward in X and Y and up to zero,
at the top, in Z. -/
def center (f : VoxelField K) (c : Vec3 Nat) : Vec3 K :=
  ⟨(c.x + 1 / 2) * f.pitch.x, (c.y + 1 / 2) * f.pitch.y, (c.z + 1 / 2) * f.pitch.z - f.size.z⟩

end VoxelField

namespace Carve

open Exact

/-- **A field stays whole when it is carved.** -/
theorem whole_carve {R : Type} [Scalar R] {f : VoxelField R} (hf : f.Whole) (tip : Vec3 R) (d : R) :
    (carve f tip d).field.Whole :=
  hf.of_isCut (cuts_carve f tip d).cut

variable {K : Type} [Field K] [LinearOrder K] [FloorRing K] {f : VoxelField K} {tip : Vec3 K}
  {d r : K} {c : Vec3 Nat}

/-- The center of a cell lies in the cylinder of radius `r` above a tip, ten radii high. -/
def InCylinder (f : VoxelField K) (tip : Vec3 K) (r : K) (c : Vec3 Nat) : Prop :=
  ((f.center c).x - tip.x) * ((f.center c).x - tip.x) +
      ((f.center c).y - tip.y) * ((f.center c).y - tip.y) ≤ r * r ∧
    tip.z ≤ (f.center c).z ∧ (f.center c).z ≤ tip.z + 10 * r

instance : DecidablePred (InCylinder f tip r) := fun _ => instDecidableAnd

section Ranges

variable [IsStrictOrderedRing K]

/-! ### The range of cells in an interval -/

/-- The range in whole numbers. -/
theorem cellRange?_eq (lo hi start pitch : K) (n : Nat) :
    cellRange? lo hi start pitch n =
      if ⌊(hi - start) / pitch - 1 / 2⌋ < max ⌈(lo - start) / pitch - 1 / 2⌉ 0 ∨
          (n : ℤ) ≤ max ⌈(lo - start) / pitch - 1 / 2⌉ 0 then none
      else some ((max ⌈(lo - start) / pitch - 1 / 2⌉ 0).toNat,
        min ⌊(hi - start) / pitch - 1 / 2⌋.toNat (n - 1)) := by
  have hfirst (a : K) : max (Scalar.ceil a) 0 = ((max ⌈a⌉ 0 : ℤ) : K) := by
    rw [Int.cast_max, Int.cast_zero]
    rfl
  have hlast (a : K) : Scalar.floor a = ((⌊a⌋ : ℤ) : K) := rfl
  have hcount : (Scalar.ofNat n : K) = ((n : ℤ) : K) := (Int.cast_natCast n).symm
  have htoNat (a : ℤ) : Scalar.toNat (a : K) = a.toNat := congrArg Int.toNat (Int.floor_intCast a)
  simp only [cellRange?, greater_eq, zero_eq, one_eq, hfirst, hlast, hcount, htoNat,
    Int.cast_lt, Int.cast_le]

/-- **The range holds the cells whose centers lie in the interval.** -/
theorem within_cellRange? {lo hi start pitch : K} (hpitch : 0 < pitch) {n i : Nat} (hin : i < n) :
    within (cellRange? lo hi start pitch n) i = true ↔
      lo ≤ start + (i + 1 / 2) * pitch ∧ start + (i + 1 / 2) * pitch ≤ hi := by
  have hfirst : ⌈(lo - start) / pitch - 1 / 2⌉ ≤ (i : ℤ) ↔ lo ≤ start + (i + 1 / 2) * pitch := by
    rw [Int.ceil_le, Int.cast_natCast, sub_le_iff_le_add, div_le_iff₀ hpitch, sub_le_iff_le_add']
  have hlast : (i : ℤ) ≤ ⌊(hi - start) / pitch - 1 / 2⌋ ↔ start + (i + 1 / 2) * pitch ≤ hi := by
    rw [Int.le_floor, Int.cast_natCast, le_sub_iff_add_le, le_div_iff₀ hpitch, le_sub_iff_add_le']
  rw [← hfirst, ← hlast, cellRange?_eq]
  split
  · simp only [within, Option.any_none, Bool.false_eq_true, false_iff]
    omega
  · rw [within_some]
    omega

/-- A center that is no further from a place than the radius lies in the interval about it. -/
theorem within_of_near {a pitch place : K} (hr : 0 ≤ r) (hpitch : 0 < pitch) {n i : Nat}
    (hin : i < n) (ha : 0 ≤ a)
    (hnear : ((i + 1 / 2) * pitch - place) * ((i + 1 / 2) * pitch - place) + a ≤ r * r) :
    within (cellRange? (place - r) (place + r) 0 pitch n) i = true := by
  have habs := abs_le_of_sq_le_sq' (a := (i + 1 / 2) * pitch - place) (b := r) (by nlinarith) hr
  rw [within_cellRange? hpitch hin]
  constructor <;> linarith

/-- **A cutter covers the cells in its cylinder.** A cell beside the bounding box is not in the
cylinder, whose radius is not negative where there is a cell between its bottom and its top. -/
theorem covers_iff (hx : 0 < f.pitch.x) (hy : 0 < f.pitch.y) (hz : 0 < f.pitch.z)
    (hc : f.inside c.x c.y c.z) : covers f tip d c = true ↔ InCylinder f tip (reach d) c := by
  obtain ⟨hcx, hcy, hcz⟩ := VoxelField.inside_iff.mp hc
  have hlayer : within (cellRange? tip.z (tip.z + shankRadii * reach d) (-f.size.z) f.pitch.z
      f.counts.z) c.z = true ↔ tip.z ≤ (f.center c).z ∧ (f.center c).z ≤ tip.z + 10 * reach d := by
    rw [within_cellRange? hz hcz, neg_add_eq_sub]
    rfl
  have hcolumn : (!decide (reach d * reach d <
      fromCenter f.pitch.x tip.x c.x * fromCenter f.pitch.x tip.x c.x +
        fromCenter f.pitch.y tip.y c.y * fromCenter f.pitch.y tip.y c.y)) = true ↔
      ((f.center c).x - tip.x) * ((f.center c).x - tip.x) +
        ((f.center c).y - tip.y) * ((f.center c).y - tip.y) ≤ reach d * reach d := by
    rw [Bool.not_eq_true', decide_eq_false_iff_not, not_lt, fromCenter, fromCenter, one_eq]
    rfl
  simp only [covers, Bool.and_eq_true, hlayer, hcolumn, InCylinder, zero_eq]
  constructor
  · rintro ⟨⟨-, hlayer⟩, hcolumn⟩
    exact ⟨hcolumn, hlayer⟩
  · rintro ⟨hnear, hlayer⟩
    have hheight : 0 ≤ ((10 : ℕ) : K) * reach d :=
      le_add_iff_nonneg_right tip.z |>.mp (hlayer.1.trans hlayer.2)
    have hreach : 0 ≤ reach d := nonneg_of_mul_nonneg_right hheight (Nat.cast_pos.mpr (by decide))
    have hcolumns := within_of_near hreach hx hcx (mul_self_nonneg _) hnear
    have hrows := within_of_near hreach hy hcy (mul_self_nonneg _) ((add_comm _ _).trans_le hnear)
    exact ⟨⟨⟨hcolumns, hrows⟩, hlayer⟩, hnear⟩

end Ranges

/-! ### The full scan -/

/-- The cells of a list are gone through, and those cleared whose centers lie in the cylinder. -/
def scan (f : VoxelField K) (tip : Vec3 K) (r : K) (cells : List (Vec3 Nat)) (p : Progress K) :
    Progress K :=
  cells.foldl (fun p c => if InCylinder f tip r c then p.clear c.x c.y c.z else p) p

/-- A scan cuts the cells of the list that lie in the cylinder. -/
theorem cuts_scan (f : VoxelField K) (tip : Vec3 K) (r : K) (cells : List (Vec3 Nat))
    (p : Progress K) :
    p.Cuts {c | c ∈ cells ∧ InCylinder f tip r c} (scan f tip r cells p) := by
  induction cells generalizing p with
  | nil =>
    have hnone : {c : Vec3 Nat | c ∈ ([] : List (Vec3 Nat)) ∧ InCylinder f tip r c} = ∅ :=
      Set.eq_empty_of_forall_notMem fun c hc => List.not_mem_nil hc.1
    rw [hnone]
    exact .refl p
  | cons first cells ih =>
    have hfirst : p.Cuts {c | c = first ∧ InCylinder f tip r c}
        (if InCylinder f tip r first then p.clear first.x first.y first.z else p) := by
      split
      · rename_i hin
        convert p.cuts_clear first.x first.y first.z using 1
        exact Set.ext fun c => ⟨fun hc => hc.1, fun hc => ⟨hc, hc ▸ hin⟩⟩
      · rename_i hout
        convert Progress.Cuts.refl p using 1
        exact Set.eq_empty_of_forall_notMem fun c hc => hout (hc.1 ▸ hc.2)
    have hsplit : {c | c ∈ first :: cells ∧ InCylinder f tip r c} =
        {c | c = first ∧ InCylinder f tip r c} ∪ {c | c ∈ cells ∧ InCylinder f tip r c} :=
      Set.ext fun c => by
        simp only [List.mem_cons, Set.mem_ofPred_eq, Set.mem_union, or_and_right]
    rw [hsplit]
    exact hfirst.trans (ih _)

/-- **A scan counts the cells that were solid** when it began, as long as it meets none twice. -/
theorem removed_scan (f : VoxelField K) (tip : Vec3 K) (r : K) {cells : List (Vec3 Nat)}
    (hcells : cells.Nodup) (p : Progress K) :
    (scan f tip r cells p).removed = p.removed +
      cells.countP fun c => InCylinder f tip r c ∧ (p.field.cell? c).any (· != 0) := by
  induction cells generalizing p with
  | nil => rfl
  | cons first cells ih =>
    obtain ⟨hnew, hcells⟩ := List.nodup_cons.mp hcells
    rw [List.countP_cons, scan, List.foldl_cons]
    by_cases hin : InCylinder f tip r first
    · -- What is cleared is not met again, so the cells to come are as they were.
      have hlater (c : Vec3 Nat) (hc : c ∈ cells) :
          (p.clear first.x first.y first.z).field.cell? c = p.field.cell? c :=
        (VoxelField.cell?_clear p.field first c).trans (if_neg fun h : c = first => hnew (h ▸ hc))
      have hcount : (p.clear first.x first.y first.z).removed =
          p.removed + if (p.field.cell? first).any (· != 0) then 1 else 0 := by
        rw [← VoxelField.fst_clear]
        show (if (p.field.clear first.x first.y first.z).1 then p.removed + 1 else p.removed) = _
        split <;> rfl
      rw [if_pos hin]
      refine (ih hcells _).trans ?_
      rw [hcount, List.countP_congr fun c hc => by rw [hlater c hc]]
      simp only [hin, true_and, decide_eq_true_eq]
      omega
    · rw [if_neg hin, if_neg (by simp only [hin, false_and, decide_false, Bool.false_eq_true,
        not_false_eq_true])]
      exact ih hcells p

/-- The solid cells in the cylinder, among those of the grid. -/
theorem countP_grid (hf : f.Whole) (tip : Vec3 K) (r : K) :
    (f.grid.countP fun c => InCylinder f tip r c ∧ (f.cell? c).any (· != 0)) =
      Set.ncard {c : Vec3 Nat | InCylinder f tip r c ∧ f.cell? c = some 1} := by
  have hsolid (c : Vec3 Nat) : (f.cell? c).any (· != 0) = true ↔ f.cell? c = some 1 := by
    cases hcell : f.cell? c with
    | none => simp
    | some b => rcases hf.binary c b hcell with rfl | rfl <;> simp
  have hset : {c : Vec3 Nat | InCylinder f tip r c ∧ f.cell? c = some 1} =
      ((f.grid.filter fun c => InCylinder f tip r c ∧ (f.cell? c).any (· != 0)).toFinset :
        Set (Vec3 Nat)) := by
    ext c
    rw [Finset.mem_coe, List.mem_toFinset, List.mem_filter, decide_eq_true_iff, hsolid]
    refine ⟨fun hc => ⟨VoxelField.mem_grid_iff.mpr ?_, hc⟩, fun hc => hc.2⟩
    by_contra hout
    have hnone : f.cell? c = none := by rw [VoxelField.cell?, VoxelField.get?, if_neg hout]
    exact absurd (hnone.symm.trans hc.2) (by simp)
  rw [hset, Set.ncard_coe_finset, List.toFinset_card_of_nodup ((VoxelField.nodup_grid f).filter _),
    List.countP_eq_length_filter]

/-! ### The bounded search -/

variable [IsStrictOrderedRing K]

/-- **The bounded search clears what a full scan clears**, and counts as much. -/
theorem carve_grid (hf : f.Complete) (hx : 0 < f.pitch.x) (hy : 0 < f.pitch.y)
    (hz : 0 < f.pitch.z) : carve f tip d = scan f tip (reach d) f.grid ⟨f, 0⟩ := by
  obtain ⟨hcut, m, hm, hm'⟩ := cuts_carve f tip d
  obtain ⟨hscan, n, hn, hn'⟩ := cuts_scan f tip (reach d) f.grid ⟨f, 0⟩
  have hfield := hcut.unique hf <| hscan.congr fun c hc => by
    rw [Set.mem_ofPred_eq, Set.mem_ofPred_eq, VoxelField.mem_grid_iff, covers_iff hx hy hz hc]
    exact and_iff_right hc
  have hremoved : (carve f tip d).removed = (scan f tip (reach d) f.grid ⟨f, 0⟩).removed := by
    rw [hfield] at hm'
    omega
  cases hcarve : carve f tip d
  cases hfull : scan f tip (reach d) f.grid ⟨f, 0⟩
  rw [hcarve, hfull] at hfield hremoved
  cases hfield
  cases hremoved
  rfl

/-- **Bounded carving is the full scan.** In exact arithmetic a cutter clears the cells whose
centers lie in its cylinder and no others, and counts those that were solid. -/
theorem carve_exact (hf : f.Whole) (hx : 0 < f.pitch.x) (hy : 0 < f.pitch.y) (hz : 0 < f.pitch.z)
    (tip : Vec3 K) (d : K) :
    let r := d / 2 + 100 * Scalar.precision
    carve f tip d = scan f tip r f.grid ⟨f, 0⟩ ∧
      (carve f tip d).field.SameGrid f ∧
      (∀ c : Vec3 Nat, (carve f tip d).field.cell? c =
        if f.inside c.x c.y c.z ∧ InCylinder f tip r c then some 0 else f.cell? c) ∧
      (carve f tip d).removed =
        Set.ncard {c : Vec3 Nat | InCylinder f tip r c ∧ f.cell? c = some 1} := by
  intro r
  have hscan : carve f tip d = scan f tip r f.grid ⟨f, 0⟩ := carve_grid hf.complete hx hy hz
  obtain ⟨hcut, -⟩ := cuts_scan f tip r f.grid ⟨f, 0⟩
  rw [← hscan] at hcut
  refine ⟨hscan, hcut.grid, fun c => ?_, ?_⟩
  · split
    · rename_i hc
      obtain ⟨b, hb⟩ := hf.complete.exists_cell? hc.1
      rw [hcut.cut c ⟨VoxelField.mem_grid_iff.mpr hc.1, hc.2⟩]
      exact congrArg (Option.map fun _ => 0) hb
    · rename_i hc
      exact hcut.kept c fun hin => hc ⟨VoxelField.mem_grid_iff.mp hin.1, hin.2⟩
  · rw [hscan, removed_scan f tip r (VoxelField.nodup_grid f), Nat.zero_add]
    exact countP_grid hf tip r

/-- One of four cells is cut. -/
theorem carve_exact_corner :
    let f : VoxelField ℚ := ⟨2, ⟨2, 2, 1⟩, ⟨2, 2, 1⟩, VoxelField.solidCells 4⟩
    let p := carve f ⟨1 / 2, 1 / 2, -1⟩ 1
    (f.Whole ∧ 0 < f.pitch.x ∧ 0 < f.pitch.y ∧ 0 < f.pitch.z) ∧
      p.field.cell? ⟨0, 0, 0⟩ = some 0 ∧ p.field.cell? ⟨1, 0, 0⟩ = some 1 ∧ p.removed = 1 := by
  intro f p
  have hf : f.Whole := VoxelField.whole_of_solidCells rfl
  have hx : 0 < f.pitch.x := by decide +kernel
  have hy : 0 < f.pitch.y := by decide +kernel
  have hz : 0 < f.pitch.z := by decide +kernel
  obtain ⟨-, -, hcells, -⟩ := carve_exact hf hx hy hz ⟨1 / 2, 1 / 2, -1⟩ 1
  refine ⟨⟨hf, hx, hy, hz⟩, (hcells _).trans ?_, (hcells _).trans ?_, ?_⟩
  · decide +kernel
  · decide +kernel
  · decide +kernel

end Carve

end Toolpath
