import Toolpath.Proofs.Simulation.Sweeps

/-!
# What a program cuts does not depend on what is cut

A document whose field fits its stock is simulated without the field being made anew. Then the cells
that a program cuts are known before anything is cut: they are swept by the course of a head that
starts from the material, and the grid on which they are swept is that of a new field. The cells
that are there already play no part in it.

Everything else follows from that. A second run sweeps the same cells and finds none of them solid.
Two programs sweep the union of what each of them sweeps, whichever comes first. And where the stock
is made solid first, there is nothing to depend on.

The condition on the field is not empty talk: its counts are stored beside its size and resolution,
and only a field that was made for them, and cut since, has the counts that belong to them.

## Main definitions

* `Document.Fits` — the field of a document has the size of its stock and the resolution asked for
* `Material.swept` — the cells that a program cuts from material
* `Document.simulated` — a document after a simulation

## Main results

* `Document.prepareStock_of_fits` — only the stock is checked, and the field stays
* `Document.Fits.cut` — a simulation cuts the swept cells
* `Document.simulate_regardless` — what is cut, and what is reported, whatever was cut before
-/

namespace Toolpath

variable {R S : Type}

/-! ### Fields that fit -/

namespace Document

/-- The field of a document has the size of its stock and the resolution that is asked for, if one
is, and it was made for them. -/
structure Fits [Scalar R] (d : Document R S) (resolution : Option UInt32) : Prop where
  /-- No other resolution is asked for. -/
  asked : ∀ r ∈ resolution, r = d.voxels.resolution
  /-- The field has the size of the stock. -/
  size : d.voxels.size.same d.material.size = true
  /-- The field has the cells of a new one. -/
  grid : d.voxels.SameGrid (VoxelField.solid d.voxels.resolution d.material.size)

section

variable [Scalar R] {d : Document R S} {resolution : Option UInt32} {v : VoxelField R}

theorem Fits.complete (h : d.Fits resolution) : d.voxels.Complete :=
  (VoxelField.complete_solid _ _).of_sameGrid h.grid

/-- A field that was made for the stock fits it, as long as the sides of the stock are numbers. -/
theorem fits_setResolution (hsize : d.material.size.same d.material.size = true) (r : UInt32) :
    (d.setResolution r).Fits none where
  asked := fun _ hr => absurd hr (Option.not_mem_none _)
  size := hsize
  grid := by
    show (VoxelField.solid r d.material.size).SameGrid
      (VoxelField.solid (VoxelField.clampResolution r) d.material.size)
    rw [VoxelField.solid_clampResolution]
    exact .refl _

/-- A field with other cells of the same grid fits as well. -/
theorem Fits.of_sameGrid (h : d.Fits resolution) (hv : v.SameGrid d.voxels) :
    (d.withVoxels v).Fits resolution where
  asked := fun r hr => (h.asked r hr).trans hv.resolution.symm
  size := by
    show v.size.same d.material.size = true
    rw [hv.size]
    exact h.size
  grid := by
    show v.SameGrid (VoxelField.solid v.resolution d.material.size)
    rw [hv.resolution]
    exact hv.trans h.grid

/-- **Only the stock is checked, and the field stays**, unless it is made solid. -/
theorem prepareStock_of_fits {settings : SimulationSettings R} (h : d.Fits settings.resolution) :
    d.prepareStock settings =
      if d.stockIsValid then
        .ok (if settings.reset then d.withVoxels d.voxels.reset else d)
      else .error (.invalidStock d.material.size) := by
  have hclamp : VoxelField.clampResolution d.voxels.resolution = d.voxels.resolution :=
    h.grid.resolution.symm
  have hzero : settings.resolution ≠ some 0 := fun hr =>
    VoxelField.ne_zero_of_clampResolution hclamp (h.asked 0 hr).symm
  have hmax : settings.resolution.filter (VoxelField.maxResolution < ·) = none := by
    refine Option.filter_eq_none_iff.mpr fun r hr => ?_
    rw [h.asked r hr, decide_eq_true_iff]
    exact VoxelField.le_of_clampResolution hclamp
  have hother : settings.resolution.filter (· != d.voxels.resolution) = none := by
    refine Option.filter_eq_none_iff.mpr fun r hr => ?_
    rw [h.asked r hr, bne_self_eq_false]
    exact Bool.false_ne_true
  have hfits : d.fitVoxels settings.resolution = d := by
    rw [fitVoxels, hother]
    exact if_pos h.size
  cases hvalid : d.stockIsValid with
  | false =>
    rw [prepareStock, hvalid]
    rfl
  | true =>
    rw [prepareStock, hvalid, if_neg (by decide), if_neg hzero, hmax, hfits]
    rfl

/-- Where the stock is made solid first, its cells play no part. -/
theorem Fits.prepareStock_withVoxels {settings : SimulationSettings R}
    (h : d.Fits settings.resolution) (hreset : settings.reset = true) (hv : v.SameGrid d.voxels) :
    (d.withVoxels v).prepareStock settings = d.prepareStock settings := by
  rw [prepareStock_of_fits h, prepareStock_of_fits (h.of_sameGrid hv), if_pos hreset, if_pos hreset,
    voxels_withVoxels, hv.reset]
  rfl

end

end Document

/-! ### What is cut -/

variable [Analytic R] [Numeral R]

/-- The cells that a program cuts from material, divided with a resolution, with a tool of a
diameter. -/
def Material.swept (m : Material R) (resolution : UInt32) (program : String) (diameter : R) :
    Set (Vec3 Nat) :=
  (VoxelField.solid resolution m.size).swept
    ((Head.start m.origin ⟨0, 0, m.clearance⟩ diameter).course
      (1 / (Scalar.ofNat resolution.toNat * m.units.inches)) (ProgramLine.readAll program))

/-- What is reported of a run does not depend on the stock, but for the number of cells cut. -/
theorem Simulator.report_run_start (f g : VoxelField R) (head : Head R) (step : R)
    (program : String) :
    ((start f head step).run program).report = { ((start g head step).run program).report with
      removed := ((start f head step).run program).removed } := by
  have hf := (start f head step).cuts_run program
  have hg := (start g head step).cuts_run program
  have hhead : ((start f head step).run program).head = ((start g head step).run program).head := by
    rw [head_run, head_run]
    rfl
  have hsteps := hf.steps.trans hg.steps.symm
  have hdistance := hf.distance.trans hg.distance.symm
  have hstep := hf.step.trans hg.step.symm
  simp only [report, hhead, hsteps, hdistance, hstep]

namespace Document

/-- A document after a simulation. -/
def simulated (d : Document R S) (program : String) (settings : SimulationSettings R) :
    Except (SimulationError R) (Document R S) :=
  (d.simulate program settings).map Prod.snd

/-- The stock of a document after a program was run against it. -/
def carved (d : Document R S) (program : String) (diameter : R) : VoxelField R :=
  ((d.simulator diameter).run program).stock

variable {d e : Document R S} {resolution : Option UInt32} {settings : SimulationSettings R}

/-- **A simulation cuts the swept cells**, and no others. -/
theorem Fits.cut (h : d.Fits resolution) (program : String) (diameter : R) :
    d.voxels.IsCut (d.material.swept d.voxels.resolution program diameter)
      (d.carved program diameter) := by
  rw [Material.swept, ← VoxelField.swept_congr h.grid]
  exact ((d.simulator diameter).cuts_run program).cut

/-- The same cells are cut whatever was cut before. -/
theorem Fits.cut_withVoxels {v : VoxelField R} (h : d.Fits resolution) (hv : v.SameGrid d.voxels)
    (program : String) (diameter : R) :
    v.IsCut (d.material.swept d.voxels.resolution program diameter)
      ((d.withVoxels v).carved program diameter) :=
  hv.resolution ▸ (h.of_sameGrid hv).cut program diameter

/-- What a simulation returns where the field fits and is kept. -/
theorem Fits.simulate_kept (h : d.Fits settings.resolution) (hkept : settings.reset = false)
    (program : String) :
    d.simulate program settings =
      if d.stockIsValid then
        .ok (((d.simulator settings.toolDiameter).run program).report,
          d.withVoxels (d.carved program settings.toolDiameter))
      else .error (.invalidStock d.material.size) := by
  rw [simulate_eq, prepareStock_of_fits h, hkept]
  split <;> rfl

/-- A field that has been cut by a program is not changed by running it again. -/
theorem Fits.carved_again (h : d.Fits resolution) (program : String) (diameter : R) :
    (d.withVoxels (d.carved program diameter)).carved program diameter =
      d.carved program diameter := by
  have hcut := h.cut program diameter
  exact (h.cut_withVoxels hcut.grid program diameter).unique (h.complete.of_sameGrid hcut.grid)
    hcut.again

/-- A document with another field of the same resolution starts with the same head and step, and
gets the same report but for the number of cells cut. -/
theorem report_withVoxels {v : VoxelField R} (hv : v.resolution = d.voxels.resolution)
    (program : String) (diameter : R) :
    (((d.withVoxels v).simulator diameter).run program).report =
      { ((d.simulator diameter).run program).report with
        removed := (((d.withVoxels v).simulator diameter).run program).removed } := by
  have hstep : (d.withVoxels v).simulationStep = d.simulationStep := by
    rw [simulationStep, simulationStep, voxels_withVoxels, hv, material_withVoxels]
  rw [simulator, hstep]
  exact Simulator.report_run_start v d.voxels _ _ program

/-- Nothing is reported as cut where nothing was. -/
theorem removed_run_of_carved_eq {program : String} {diameter : R}
    (h : d.carved program diameter = d.voxels) :
    ((d.simulator diameter).run program).removed = 0 := by
  obtain ⟨n, hremoved, hcount⟩ := ((d.simulator diameter).cuts_run program).counted
  have hsame : d.voxels.solidCount = d.voxels.solidCount + n :=
    hcount.trans (congrArg (·.solidCount + n) h)
  have hn : n = 0 := by omega
  rw [hremoved, hn]
  rfl

/-- Two programs leave the same field, whichever comes first. -/
theorem Fits.carved_comm (h : d.Fits resolution) (program other : String) (diameter width : R) :
    (d.withVoxels (d.carved program diameter)).carved other width =
      (d.withVoxels (d.carved other width)).carved program diameter := by
  have hfirst := h.cut program diameter
  have hsecond := h.cut other width
  refine (hfirst.trans (h.cut_withVoxels hfirst.grid other width)).unique h.complete ?_
  rw [Set.union_comm]
  exact hsecond.trans (h.cut_withVoxels hsecond.grid program diameter)

/-- Two simulations, one after the other, in terms of the field that they leave. -/
theorem Fits.simulated_twice {later : SimulationSettings R} (h : d.Fits settings.resolution)
    (hlater : d.Fits later.resolution) (hkept : settings.reset = false)
    (hlaterKept : later.reset = false) (program other : String) :
    (d.simulated program settings).bind (·.simulated other later) =
      if d.stockIsValid then
        .ok (d.withVoxels
          ((d.withVoxels (d.carved program settings.toolDiameter)).carved other later.toolDiameter))
      else .error (.invalidStock d.material.size) := by
  have hfits := hlater.of_sameGrid (h.cut program settings.toolDiameter).grid
  rw [simulated, h.simulate_kept hkept]
  cases hvalid : d.stockIsValid with
  | false => rfl
  | true =>
    let carved := d.withVoxels (d.carved program settings.toolDiameter)
    show Except.map Prod.snd (carved.simulate other later) = _
    rw [hfits.simulate_kept hlaterKept]
    rw [stockIsValid_withVoxels, if_pos hvalid]
    rfl

/-- **What a program cuts does not depend on what is cut already**, where the field fits the stock
and the resolution. If the field is kept, the cells swept by the program are cut and no others; a
second run does and reports the same, but finds nothing to cut; and it does not matter which of two
programs comes first. If the field is made solid first, its cells play no part at all. -/
theorem simulate_regardless (d : Document R S) (settings : SimulationSettings R)
    (h : d.Fits settings.resolution) (program : String) :
    (settings.reset = false →
      (∀ report d', d.simulate program settings = .ok (report, d') →
        d' = d.withVoxels d'.voxels ∧
        d.voxels.IsCut
          (d.material.swept d.voxels.resolution program settings.toolDiameter) d'.voxels ∧
        d'.simulate program settings = .ok ({ report with removed := 0 }, d')) ∧
      ∀ (other : String) (later : SimulationSettings R), d.Fits later.resolution →
        later.reset = false →
        (d.simulated program settings).bind (·.simulated other later) =
          (d.simulated other later).bind (·.simulated program settings)) ∧
    (settings.reset = true →
      ∀ v : VoxelField R, v.SameGrid d.voxels →
        (d.withVoxels v).simulate program settings =
          d.simulate program settings) := by
  refine ⟨fun hkept => ⟨fun report d' hsim => ?_, fun other later hlater hlaterKept => ?_⟩,
    fun hreset v hv => ?_⟩
  · rw [h.simulate_kept hkept] at hsim
    split at hsim
    · rename_i hvalid
      obtain ⟨rfl, rfl⟩ := Prod.mk.inj (Except.ok.inj hsim)
      have hcut := h.cut program settings.toolDiameter
      have hfits := h.of_sameGrid hcut.grid
      have hagain := h.carved_again program settings.toolDiameter
      refine ⟨rfl, hcut, ?_⟩
      rw [hfits.simulate_kept hkept, hagain, stockIsValid_withVoxels, if_pos hvalid,
        report_withVoxels hcut.grid.resolution, removed_run_of_carved_eq hagain]
      rfl
    · cases hsim
  · rw [h.simulated_twice hlater hkept hlaterKept, hlater.simulated_twice h hlaterKept hkept,
      h.carved_comm]
  · rw [simulate_eq, simulate_eq, h.prepareStock_withVoxels hreset hv]

theorem simulate_regardless_cube :
    let keep : SimulationSettings Double := { (SimulationSettings.standard) with reset := false }
    let wide : SimulationSettings Double := { keep with toolDiameter := 1 }
    let corner := "G01 X0.25 Y0.25 Z-0.75 F10"
    let middle := "G01 X0.5 Y0.5 Z-0.25"
    (∃ report d', Simulator.cube.simulate corner keep = .ok (report, d') ∧
      d'.simulate corner keep = .ok ({ report with removed := 0 }, d')) ∧
    (Simulator.cube.simulated corner keep).bind (·.simulated middle wide) =
      (Simulator.cube.simulated middle wide).bind (·.simulated corner keep) ∧
    (Simulator.cube.withVoxels (Simulator.cube.voxels.clear 0 0 0).2).simulate corner .standard =
      Simulator.cube.simulate corner .standard := by
  intro keep wide corner middle
  have hfits : Simulator.cube.Fits none := fits_setResolution (by decide +kernel) 2
  have hkept := (simulate_regardless Simulator.cube keep hfits corner).1 rfl
  have hreset := (simulate_regardless Simulator.cube .standard hfits corner).2 rfl
  refine ⟨?_, hkept.2 middle wide hfits rfl, hreset _ (VoxelField.sameGrid_clear _ _ _ _)⟩
  have hok : (Simulator.cube.simulate corner keep).isOk = true := by decide +kernel
  cases h : Simulator.cube.simulate corner keep with
  | error _ =>
    rw [h] at hok
    cases hok
  | ok p => exact ⟨p.1, p.2, rfl, (hkept.1 p.1 p.2 h).2.2⟩

end Document

end Toolpath
