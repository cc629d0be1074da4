import Toolpath.Proofs.Stock.Cells
import Toolpath.Stock.Carve

/-!
# What a cutter clears

A cutter at a point covers certain cells, and these are the ones it clears. Which ones they are is
read off the grid alone; `Carve.covers` says it for one cell, without the loops that visit them.

The loops visit a cell of the grid once, but nothing here depends on that. A visit cuts one cell and
counts it if it was solid, so that as many cells are counted as are solid no more. `Progress.Cuts`
is this, together with the set of cells visited; it composes, and every loop is a composition of
visits.

## Main definitions

* `Carve.Progress.Cuts` — the cells of a set were cut, and counted
* `Carve.covers` — a cutter covers a cell

## Main results

* `Carve.cuts_carve` — carving cuts the cells that the cutter covers, and counts them
* `Carve.covers_congr` — what a cutter covers depends on the grid only
-/

namespace Toolpath

namespace Carve

variable {R : Type} {p q r : Progress R} {S T : Set (Vec3 Nat)}

/-! ### Cuts that are counted -/

/-- From `p` to `q` the cells of a set were cut, and those among them counted that were solid. -/
structure Progress.Cuts (p : Progress R) (S : Set (Vec3 Nat)) (q : Progress R) : Prop where
  /-- The cells of the set were cut, and no others. -/
  cut : p.field.IsCut S q.field
  /-- As many cells are counted as are solid no more. -/
  counted : ∃ n, q.removed = p.removed + n ∧ p.field.solidCount = q.field.solidCount + n

theorem Progress.Cuts.refl (p : Progress R) : p.Cuts ∅ p := ⟨.refl _, 0, rfl, rfl⟩

theorem Progress.Cuts.trans (hpq : p.Cuts S q) (hqr : q.Cuts T r) : p.Cuts (S ∪ T) r where
  cut := hpq.cut.trans hqr.cut
  counted := by
    obtain ⟨m, hm, hm'⟩ := hpq.counted
    obtain ⟨n, hn, hn'⟩ := hqr.counted
    exact ⟨m + n, by omega, by omega⟩

theorem Progress.cuts_clear (p : Progress R) (x y z : Nat) :
    p.Cuts {⟨x, y, z⟩} (p.clear x y z) where
  cut := VoxelField.isCut_clear p.field ⟨x, y, z⟩
  counted := by
    refine ⟨if (p.field.clear x y z).1 then 1 else 0, ?_, (p.field.solidCount_clear x y z).symm⟩
    show (if (p.field.clear x y z).1 then p.removed + 1 else p.removed) = _
    split <;> rfl

/-! ### Loops -/

/-- The run lemma for a loop over numbers: what its steps cut is cut in the end. -/
theorem cuts_stepsFrom {step : Nat → Progress R → Progress R} {S : Nat → Set (Vec3 Nat)}
    (h : ∀ (i : Nat) (p : Progress R), p.Cuts (S i) (step i p)) (n i : Nat) (p : Progress R) :
    p.Cuts {c | ∃ j, i ≤ j ∧ j < i + n ∧ c ∈ S j} (stepsFrom step i n p) := by
  induction n generalizing i p with
  | zero =>
    have hnone : {c | ∃ j, i ≤ j ∧ j < i + 0 ∧ c ∈ S j} = ∅ :=
      Set.eq_empty_of_forall_notMem fun c ⟨j, hle, hlt, _⟩ => by omega
    rw [hnone]
    exact .refl p
  | succ n ih =>
    have hfirst : {c | ∃ j, i ≤ j ∧ j < i + (n + 1) ∧ c ∈ S j} =
        S i ∪ {c | ∃ j, i + 1 ≤ j ∧ j < i + 1 + n ∧ c ∈ S j} := by
      ext c
      constructor
      · rintro ⟨j, hle, hlt, hc⟩
        rcases Nat.eq_or_lt_of_le hle with rfl | hlater
        · exact .inl hc
        · exact .inr ⟨j, hlater, by omega, hc⟩
      · rintro (hc | ⟨j, hle, hlt, hc⟩)
        · exact ⟨i, Nat.le_refl i, by omega, hc⟩
        · exact ⟨j, by omega, by omega, hc⟩
    rw [hfirst]
    exact (h i p).trans (ih (i + 1) (step i p))

theorem cuts_steps {step : Nat → Progress R → Progress R} {S : Nat → Set (Vec3 Nat)}
    (h : ∀ (i : Nat) (p : Progress R), p.Cuts (S i) (step i p)) (range : Nat × Nat)
    (p : Progress R) :
    p.Cuts {c | ∃ j, range.1 ≤ j ∧ j ≤ range.2 ∧ c ∈ S j} (steps range step p) := by
  have hbound (j : Nat) (hle : range.1 ≤ j) :
      j < range.1 + (range.2 + 1 - range.1) ↔ j ≤ range.2 := by
    omega
  have hrange : {c | ∃ j, range.1 ≤ j ∧ j ≤ range.2 ∧ c ∈ S j} =
      {c | ∃ j, range.1 ≤ j ∧ j < range.1 + (range.2 + 1 - range.1) ∧ c ∈ S j} := by
    ext c
    exact exists_congr fun j => and_congr_right fun hle => and_congr_left' (hbound j hle).symm
  rw [hrange]
  exact cuts_stepsFrom h _ _ p

/-! ### What a cutter covers -/

variable [Scalar R]

/-- Whether a number lies in a range, both ends included. -/
def within (range : Option (Nat × Nat)) (i : Nat) : Bool :=
  range.any fun r => decide (r.1 ≤ i) && decide (i ≤ r.2)

@[simp] theorem within_some {range : Nat × Nat} {i : Nat} :
    within (some range) i = true ↔ range.1 ≤ i ∧ i ≤ range.2 := by
  simp [within]

/-- Whether a cutter of a diameter with its tip at a point covers a cell: its center is in the
bounding box of the cylinder, and its column is within the radius. -/
def covers (field : VoxelField R) (tip : Vec3 R) (diameter : R) (c : Vec3 Nat) : Bool :=
  let radius := reach diameter
  let pitch := field.pitch
  let counts := field.counts
  let dx := fromCenter pitch.x tip.x c.x
  let dy := fromCenter pitch.y tip.y c.y
  within (cellRange? (tip.x - radius) (tip.x + radius) 0 pitch.x counts.x) c.x &&
    within (cellRange? (tip.y - radius) (tip.y + radius) 0 pitch.y counts.y) c.y &&
    within (cellRange? tip.z (tip.z + shankRadii * radius) (-field.size.z) pitch.z counts.z) c.z &&
    !decide (radius * radius < dx * dx + dy * dy)

/-- **What a cutter covers depends on the grid only.** -/
theorem covers_congr {f g : VoxelField R} (h : f.SameGrid g) : covers f = covers g := by
  funext tip diameter c
  simp only [covers, h.pitch, h.counts, h.size]

theorem cuts_clearBox (px py r2 : R) (tip : Vec3 R) (xs ys zs : Nat × Nat) (p : Progress R) :
    p.Cuts {c | (ys.1 ≤ c.y ∧ c.y ≤ ys.2) ∧ (xs.1 ≤ c.x ∧ c.x ≤ xs.2) ∧
        (zs.1 ≤ c.z ∧ c.z ≤ zs.2) ∧
        ¬ r2 < fromCenter px tip.x c.x * fromCenter px tip.x c.x +
          fromCenter py tip.y c.y * fromCenter py tip.y c.y}
      (clearBox px py r2 tip xs ys zs p) := by
  -- A column is visited from bottom to top, unless its center is beyond the radius.
  have hcolumn (x y : Nat) (p : Progress R) :
      p.Cuts {c | c.x = x ∧ c.y = y ∧ (zs.1 ≤ c.z ∧ c.z ≤ zs.2) ∧
          ¬ r2 < fromCenter px tip.x x * fromCenter px tip.x x +
            fromCenter py tip.y y * fromCenter py tip.y y}
        (if r2 < fromCenter px tip.x x * fromCenter px tip.x x +
            fromCenter py tip.y y * fromCenter py tip.y y then p
          else steps zs (fun z p => p.clear x y z) p) := by
    split
    · rename_i hfar
      convert Progress.Cuts.refl p
      exact Set.eq_empty_of_forall_notMem fun c hc => hc.2.2.2 hfar
    · rename_i hnear
      convert cuts_steps (fun z p => p.cuts_clear x y z) zs p using 1
      ext c
      constructor
      · rintro ⟨rfl, rfl, hz, -⟩
        exact ⟨c.z, hz.1, hz.2, rfl⟩
      · rintro ⟨z, hlo, hhi, rfl⟩
        exact ⟨rfl, rfl, ⟨hlo, hhi⟩, hnear⟩
  convert cuts_steps (fun y p => cuts_steps (fun x p => hcolumn x y p) xs p) ys p using 1
  · ext c
    constructor
    · rintro ⟨hy, hx, hz, hnear⟩
      exact ⟨c.y, hy.1, hy.2, c.x, hx.1, hx.2, rfl, rfl, hz, hnear⟩
    · rintro ⟨_, hylo, hyhi, _, hxlo, hxhi, rfl, rfl, hz, hnear⟩
      exact ⟨⟨hylo, hyhi⟩, ⟨hxlo, hxhi⟩, hz, hnear⟩
  · rfl

/-- **Carving cuts the cells that the cutter covers**, and counts those that were solid. -/
theorem cuts_carve (field : VoxelField R) (tip : Vec3 R) (diameter : R) :
    Progress.Cuts ⟨field, 0⟩ {c | covers field tip diameter c} (carve field tip diameter) := by
  simp only [carve]
  split
  · rename_i xs ys zs hx hy hz
    convert cuts_clearBox field.pitch.x field.pitch.y (reach diameter * reach diameter) tip xs ys zs
      ⟨field, 0⟩ using 1
    ext c
    simp only [covers, hx, hy, hz, Set.mem_ofPred_eq, Bool.and_eq_true, within_some,
      Bool.not_eq_true', decide_eq_false_iff_not]
    exact ⟨fun ⟨⟨⟨hxs, hys⟩, hzs⟩, hnear⟩ => ⟨hys, hxs, hzs, hnear⟩,
      fun ⟨hys, hxs, hzs, hnear⟩ => ⟨⟨⟨hxs, hys⟩, hzs⟩, hnear⟩⟩
  · rename_i hmissing
    -- One of the ranges is empty, so nothing is covered.
    convert Progress.Cuts.refl _
    refine Set.eq_empty_of_forall_notMem fun c hc => ?_
    simp only [covers, Set.mem_ofPred_eq, Bool.and_eq_true] at hc
    obtain ⟨⟨⟨hx, hy⟩, hz⟩, -⟩ := hc
    obtain ⟨xs, hxs, -⟩ := (Option.any_eq_true _ _).mp hx
    obtain ⟨ys, hys, -⟩ := (Option.any_eq_true _ _).mp hy
    obtain ⟨zs, hzs, -⟩ := (Option.any_eq_true _ _).mp hz
    exact hmissing xs ys zs hxs hys hzs

end Carve

end Toolpath
