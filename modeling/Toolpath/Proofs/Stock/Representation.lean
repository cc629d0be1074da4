import Mathlib.Data.Set.Function
import Toolpath.Proofs.Stock.Scanning

/-!
# What a field always is

The number of cells along a side is computed from its length, and nothing is known of that: it may
be negative or no number, and then so is whatever is computed from it. A field is sound all the
same, since each number is clamped before it is used. From there on it is kept sound by everything
that can be done to it, so the cells that a call addresses are there.

The cells are addressed by their places in the run of bytes. In a sound field this is one to one:
there is a byte for every cell, and a cell for every byte. A cutter reaches the cells in no other
way than by clearing them one at a time.

## Main definitions

* `VoxelField.Call`, `VoxelField.after` — what can be done to a field, and what becomes of it
* `VoxelField.Sound` — the numbers of cells are within their limits, and there are so many bytes

## Main results

* `VoxelField.Sound.after` — a call keeps a field sound
* `VoxelField.Sound.bijOn_index` — cells and bytes correspond to each other
* `Carve.clears_carve` — a cutter clears one cell after the other
* `VoxelField.sound_run` — all of this, after any calls
-/

namespace Toolpath

/-! ### Carving by clearing -/

namespace Carve

variable {R : Type} {p q r : Progress R}

/-- From `p` to `q` the cells of a list were cleared one after the other. -/
def Progress.Clears (p q : Progress R) : Prop :=
  ∃ cells : List (Vec3 Nat), q = cells.foldl (fun p c => p.clear c.x c.y c.z) p

theorem Progress.Clears.refl (p : Progress R) : p.Clears p := ⟨[], rfl⟩

theorem Progress.Clears.trans (hpq : p.Clears q) (hqr : q.Clears r) : p.Clears r := by
  obtain ⟨cells, rfl⟩ := hpq
  obtain ⟨more, rfl⟩ := hqr
  exact ⟨cells ++ more, List.foldl_append.symm⟩

theorem Progress.clears_clear (p : Progress R) (x y z : Nat) : p.Clears (p.clear x y z) :=
  ⟨[⟨x, y, z⟩], rfl⟩

/-- The run lemma for a loop over numbers: if its steps clear cells, so does the loop. -/
theorem clears_stepsFrom {step : Nat → Progress R → Progress R}
    (h : ∀ (i : Nat) (p : Progress R), p.Clears (step i p)) (n i : Nat) (p : Progress R) :
    p.Clears (stepsFrom step i n p) := by
  induction n generalizing i p with
  | zero => exact .refl p
  | succ n ih => exact (h i p).trans (ih (i + 1) (step i p))

theorem clears_steps {step : Nat → Progress R → Progress R}
    (h : ∀ (i : Nat) (p : Progress R), p.Clears (step i p)) (range : Nat × Nat)
    (p : Progress R) : p.Clears (steps range step p) :=
  clears_stepsFrom h _ _ p

/-- **A cutter clears one cell after the other.** -/
theorem clears_carve [Scalar R] (f : VoxelField R) (tip : Vec3 R) (diameter : R) :
    Progress.Clears ⟨f, 0⟩ (carve f tip diameter) := by
  rw [carve]
  split
  · refine clears_steps (fun y p => clears_steps (fun x p => ?_) _ p) _ _
    dsimp only
    split
    · exact .refl p
    · exact clears_steps (fun z p => p.clears_clear x y z) _ p
  · exact .refl _

end Carve

namespace VoxelField

variable {R : Type} {f g : VoxelField R}

/-! ### Sound fields -/

/-- What can be done to a field. -/
inductive Call (R : Type) where
  /-- It is made anew for stock of a size. -/
  | renew (resolution : UInt32) (size : Vec3 R)
  /-- All its cells are made solid. -/
  | reset
  /-- A cell is cleared. -/
  | clear (x y z : Nat)
  /-- A cutter of a diameter stands at a point. -/
  | carve (tip : Vec3 R) (diameter : R)

/-- The field after a call. -/
def after [Scalar R] (f : VoxelField R) : Call R → VoxelField R
  | .renew resolution size => solid resolution size
  | .reset => f.reset
  | .clear x y z => (f.clear x y z).2
  | .carve tip diameter => (Carve.carve f tip diameter).field

/-- The resolution and the numbers of cells are within their limits, and there is a byte for every
cell, which is zero or one. -/
structure Sound (f : VoxelField R) : Prop where
  /-- The resolution is one that a field can have. -/
  resolution : 1 ≤ f.resolution ∧ f.resolution ≤ maxResolution
  /-- There is a cell along every side, and not more of them than the resolution says. -/
  counts : ∀ n ∈ f.counts.toList, 1 ≤ n ∧ n ≤ f.resolution.toNat
  /-- The bytes are those of the cells. -/
  whole : f.Whole

theorem sound_solid [Scalar R] (resolution : UInt32) (size : Vec3 R) :
    (solid resolution size).Sound where
  resolution := ⟨one_le_clampResolution resolution, clampResolution_le resolution⟩
  counts := by
    rw [solid_eq]
    intro n hn
    obtain ⟨s, -, rfl⟩ := List.mem_map.mp (show n ∈ size.toList.map
      (countAlong (clampResolution resolution).toNat (longestSide size)) from hn)
    have hone := UInt32.le_iff_toNat_le.mp (one_le_clampResolution resolution)
    exact ⟨one_le_countAlong _ _ s, countAlong_le hone _ s⟩
  whole := whole_solid resolution size

/-- A field on the grid of a sound one is sound if it is whole. -/
theorem Sound.of_sameGrid (hf : f.Sound) (hgrid : g.SameGrid f) (hg : g.Whole) : g.Sound where
  resolution := by
    rw [hgrid.resolution]
    exact hf.resolution
  counts := by
    rw [hgrid.counts, hgrid.resolution]
    exact hf.counts
  whole := hg

theorem sameGrid_reset (f : VoxelField R) : f.reset.SameGrid f :=
  ⟨rfl, rfl, rfl, (congrArg Array.size (data_solidCells _)).trans Array.size_replicate⟩

/-- **A call keeps a field sound.** -/
theorem Sound.after [Scalar R] (hf : f.Sound) (c : Call R) : (f.after c).Sound := by
  cases c with
  | renew resolution size => exact sound_solid resolution size
  | reset => exact hf.of_sameGrid (sameGrid_reset f) hf.whole.reset
  | clear x y z =>
    exact hf.of_sameGrid (sameGrid_clear f x y z) (hf.whole.of_isCut (isCut_clear f ⟨x, y, z⟩))
  | carve tip d =>
    exact hf.of_sameGrid (Carve.cuts_carve f tip d).cut.grid (Carve.whole_carve hf.whole tip d)

theorem Sound.foldl_after [Scalar R] (hf : f.Sound) (calls : List (Call R)) :
    (calls.foldl VoxelField.after f).Sound := by
  induction calls generalizing f with
  | nil => exact hf
  | cons c calls ih => exact ih (hf.after c)

/-! ### Limits -/

theorem Sound.counts_le (hf : f.Sound) : f.counts.x ≤ maxResolution.toNat ∧
    f.counts.y ≤ maxResolution.toNat ∧ f.counts.z ≤ maxResolution.toNat := by
  have hle (n : Nat) (hn : n ∈ f.counts.toList) : n ≤ maxResolution.toNat :=
    Nat.le_trans (hf.counts n hn).2 (UInt32.le_iff_toNat_le.mp hf.resolution.2)
  exact ⟨hle _ (by simp [Vec3.toList]), hle _ (by simp [Vec3.toList]),
    hle _ (by simp [Vec3.toList])⟩

/-- There are not too many cells. -/
theorem Sound.length_le (hf : f.Sound) : f.length ≤ 512 ^ 3 := by
  obtain ⟨hx, hy, hz⟩ := hf.counts_le
  rw [hf.whole.complete]
  exact cellCount_le hx hy hz

/-- The cells are counted without overflow. -/
theorem Sound.counted_eq (hf : f.Sound) : counted f.counts = (f.counts, f.length) := by
  obtain ⟨hx, hy, hz⟩ := hf.counts_le
  rw [hf.whole.complete]
  exact VoxelField.counted_eq hx hy hz

/-! ### Addresses -/

/-- **Cells and bytes correspond to each other.** -/
theorem Complete.bijOn_index (hf : f.Complete) :
    Set.BijOn (fun c : Vec3 Nat => f.index c.x c.y c.z)
      {c | c.x < f.counts.x ∧ c.y < f.counts.y ∧ c.z < f.counts.z} (Set.Iio f.length) := by
  rw [hf]
  refine ⟨fun c hc => index_lt_cellCount (inside_iff.mpr hc), fun c hc e he h =>
    index_injective (inside_iff.mpr hc) (inside_iff.mpr he) h, fun i hi => ?_⟩
  obtain ⟨c, hc, hindex⟩ := exists_index hi
  exact ⟨c, inside_iff.mp hc, hindex⟩

/-- A whole field has no other bytes than zero and one. -/
theorem Whole.bytes (hf : f.Whole) : ∀ b ∈ f.cells.data, b = 0 ∨ b = 1 := by
  intro b hb
  obtain ⟨i, hi, rfl⟩ := Array.getElem_of_mem hb
  obtain ⟨c, hc, rfl⟩ := exists_index (Nat.lt_of_lt_of_eq hi hf.complete)
  exact hf.binary c _ (by rw [cell?, get?, if_pos hc, Array.getElem?_eq_getElem hi])

/-- There is a value for the cells of the grid and for no others. -/
theorem Complete.isSome_cell? (hf : f.Complete) (c : Vec3 Nat) :
    (f.cell? c).isSome ↔ f.inside c.x c.y c.z := by
  constructor
  · intro hsome
    by_contra hc
    rw [cell?, get?, if_neg hc] at hsome
    exact Bool.false_ne_true hsome
  · intro hc
    obtain ⟨b, hb⟩ := hf.exists_cell? hc
    rw [hb]
    rfl

/-- Clearing a cell tells whether it was solid. -/
theorem Whole.fst_clear_iff (hf : f.Whole) (c : Vec3 Nat) :
    (f.clear c.x c.y c.z).1 = true ↔ f.cell? c = some 1 := by
  rw [fst_clear]
  cases hcell : f.cell? c with
  | none => simp
  | some b => rcases hf.binary c b hcell with rfl | rfl <;> simp

theorem Complete.cell?_clear_eq (hf : f.Complete) (c e : Vec3 Nat) :
    (f.clear c.x c.y c.z).2.cell? e =
      if e = c ∧ f.inside c.x c.y c.z then some 0 else f.cell? e := by
  rw [cell?_clear]
  by_cases hec : e = c
  · subst hec
    rw [if_pos rfl]
    by_cases he : f.inside e.x e.y e.z = true
    · obtain ⟨b, hb⟩ := hf.exists_cell? he
      rw [if_pos ⟨rfl, he⟩, hb]
      rfl
    · have hnone : f.cell? e = none := if_neg he
      rw [if_neg fun h => he h.2, hnone]
      rfl
  · rw [if_neg hec, if_neg fun h => hec h.1]

/-- **A field is sound after any calls**, whatever it was made for and whatever the arithmetic
gives. Its cells are addressed one to one, they have a value exactly if they are there, and a cell
that is cleared is the only one that changes. A cutter does nothing else to a field than to clear
one cell after the other, so no address is beyond the bytes. -/
theorem sound_run [Scalar R] (resolution : UInt32) (size : Vec3 R) (calls : List (Call R)) :
    let f := calls.foldl after (solid resolution size)
    ((1 ≤ f.resolution ∧ f.resolution ≤ maxResolution) ∧
      (∀ n ∈ f.counts.toList, 1 ≤ n ∧ n ≤ f.resolution.toNat) ∧
      f.length = f.counts.x * f.counts.y * f.counts.z ∧
      f.length ≤ 512 ^ 3 ∧
      counted f.counts = (f.counts, f.length) ∧
      ∀ b ∈ f.cells.data, b = 0 ∨ b = 1) ∧
    Set.BijOn (fun c : Vec3 Nat => f.index c.x c.y c.z)
      {c | c.x < f.counts.x ∧ c.y < f.counts.y ∧ c.z < f.counts.z} (Set.Iio f.cells.size) ∧
    (∀ x y z, (f.get? x y z).isSome ↔ x < f.counts.x ∧ y < f.counts.y ∧ z < f.counts.z) ∧
    (∀ c : Vec3 Nat, ((f.clear c.x c.y c.z).1 = true ↔ f.get? c.x c.y c.z = some 1) ∧
      (f.clear c.x c.y c.z).2.SameGrid f ∧
      ∀ e : Vec3 Nat, (f.clear c.x c.y c.z).2.get? e.x e.y e.z =
        if e = c ∧ f.inside c.x c.y c.z then some 0 else f.get? e.x e.y e.z) ∧
    ∀ tip diameter, ∃ cells : List (Vec3 Nat), Carve.carve f tip diameter =
      cells.foldl (fun p c => p.clear c.x c.y c.z) ⟨f, 0⟩ := by
  intro f
  have hf : f.Sound := (sound_solid resolution size).foldl_after calls
  have hwhole := hf.whole
  exact ⟨⟨hf.resolution, hf.counts, hwhole.complete, hf.length_le, hf.counted_eq, hwhole.bytes⟩,
    hwhole.complete.bijOn_index,
    fun x y z => (hwhole.complete.isSome_cell? ⟨x, y, z⟩).trans inside_iff,
    fun c => ⟨hwhole.fst_clear_iff c, sameGrid_clear f _ _ _, hwhole.complete.cell?_clear_eq c⟩,
    fun tip diameter => Carve.clears_carve f tip diameter⟩

end VoxelField

end Toolpath
