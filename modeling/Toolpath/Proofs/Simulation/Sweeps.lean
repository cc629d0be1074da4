import Toolpath.Project.Record
import Toolpath.Proofs.Stock.Carving
import Toolpath.Simulation.Simulator

/-!
# What a program sweeps

A head runs through a program on its own: the lines say where it cuts and with which tool, and the
stock is not asked. The places, in the coordinates of the stock, are the *course* of the head. What
is left of the stock is told by the course alone: the cells that it sweeps are cut and the others
are kept, in whatever state they were.

So the distinction that everything here rests on is between the head, which is a fold over the
lines, and the rest of a simulator, which `Simulator.Cuts` relates to a list of bites. A line is the
step, `Simulator.cuts_execute`; a program is the run, `Simulator.cuts_run`.

## Main definitions

* `Head.after`, `Head.course` — a head after lines, and what it bites on its way
* `VoxelField.swept` — the cells that are cut by bites
* `Simulator.Cuts` — what bites do to a simulator

## Main results

* `Simulator.cuts_run` — a program does to a simulator what its course says
* `Simulator.run_accounts` — every cell that is gone is reported, and none is reported twice
-/

namespace Toolpath

/-- A tool cutting at a place. -/
structure Bite (R : Type) where
  /-- The place of the tip in the coordinates of the stock. -/
  tip : Vec3 R
  /-- The diameter of the tool. -/
  diameter : R

variable {R : Type}

/-- The lines of a program as they are read. -/
def ProgramLine.readAll [Numeral R] (program : String) : List (ProgramLine R) :=
  (Text.lines program.toList).map read

/-! ### The way of a head -/

namespace Head

/-- The bites at stations on the way of a head. -/
def bites [Scalar R] (h : Head R) (stations : List (Vec3 R)) : List (Bite R) :=
  stations.map fun place => ⟨place + h.origin, h.diameter⟩

variable [Analytic R]

/-- A head after lines. -/
def after (step : R) (h : Head R) (lines : List (ProgramLine R)) : Head R :=
  lines.foldl (fun h l => (h.obey step l).1) h

/-- What a head bites while it obeys lines. -/
def course (step : R) : Head R → List (ProgramLine R) → List (Bite R)
  | _, [] => []
  | h, l :: rest =>
    (h.obey step l).1.bites (h.obey step l).2 ++ course step (h.obey step l).1 rest

end Head

/-! ### Swept cells -/

namespace VoxelField

variable [Scalar R] {f g : VoxelField R}

/-- The cells that are cut by bites. -/
def swept (f : VoxelField R) (bites : List (Bite R)) : Set (Vec3 Nat) :=
  {c | ∃ b ∈ bites, Carve.covers f b.tip b.diameter c}

@[simp] theorem swept_nil (f : VoxelField R) : f.swept [] = ∅ :=
  Set.eq_empty_of_forall_notMem fun _ ⟨_, hb, _⟩ => absurd hb List.not_mem_nil

theorem swept_singleton (f : VoxelField R) (b : Bite R) :
    f.swept [b] = {c | Carve.covers f b.tip b.diameter c} := by
  ext c
  constructor
  · rintro ⟨_, hb, hc⟩
    exact List.mem_singleton.mp hb ▸ hc
  · exact fun hc => ⟨b, List.mem_singleton_self b, hc⟩

theorem swept_append (f : VoxelField R) (bites later : List (Bite R)) :
    f.swept (bites ++ later) = f.swept bites ∪ f.swept later := by
  ext c
  constructor
  · rintro ⟨b, hb, hc⟩
    exact (List.mem_append.mp hb).imp (fun hb => ⟨b, hb, hc⟩) fun hb => ⟨b, hb, hc⟩
  · rintro (⟨b, hb, hc⟩ | ⟨b, hb, hc⟩)
    · exact ⟨b, List.mem_append_left _ hb, hc⟩
    · exact ⟨b, List.mem_append_right _ hb, hc⟩

/-- What is swept depends on the grid only. -/
theorem swept_congr (h : f.SameGrid g) : f.swept = g.swept := by
  funext bites
  simp only [swept, Carve.covers_congr h]

end VoxelField

/-! ### The way of a simulator -/

namespace Simulator

/-- From `s` to `s'` a simulator made some bites. Nothing is said about the head, which goes its
own way. -/
structure Cuts [Scalar R] (s : Simulator R) (bites : List (Bite R)) (s' : Simulator R) : Prop where
  /-- The step stays. -/
  step : s'.step = s.step
  /-- The swept cells were cut, and no others. -/
  cut : s.stock.IsCut (s.stock.swept bites) s'.stock
  /-- As many cells are counted as are solid no more. -/
  counted : ∃ n, s'.removed = s.removed + n ∧ s.stock.solidCount = s'.stock.solidCount + n
  /-- Every bite is a step. -/
  steps : s'.steps = s.steps + bites.length
  /-- Every step is a distance covered. -/
  distance : s'.distance = (· + s.step)^[bites.length] s.distance

section

variable [Scalar R] {s s' s'' : Simulator R} {bites later : List (Bite R)}

theorem Cuts.refl (s : Simulator R) : s.Cuts [] s :=
  ⟨rfl, s.stock.swept_nil ▸ .refl _, ⟨0, rfl, rfl⟩, rfl, rfl⟩

theorem Cuts.trans (h : s.Cuts bites s') (h' : s'.Cuts later s'') :
    s.Cuts (bites ++ later) s'' where
  step := h'.step.trans h.step
  cut := by
    rw [VoxelField.swept_append]
    exact h.cut.trans (VoxelField.swept_congr h.cut.grid ▸ h'.cut)
  counted := by
    obtain ⟨m, hm, hm'⟩ := h.counted
    obtain ⟨n, hn, hn'⟩ := h'.counted
    exact ⟨m + n, by omega, by omega⟩
  steps := by rw [h'.steps, h.steps, List.length_append, Nat.add_assoc]
  distance := by
    rw [h'.distance, h.distance, h.step, ← Function.iterate_add_apply, List.length_append,
      Nat.add_comm]

/-- One bite. -/
theorem cuts_cut (s : Simulator R) (place : Vec3 R) :
    s.Cuts (s.head.bites [place]) (s.cut place) := by
  have hcarve := Carve.cuts_carve s.stock (place + s.head.origin) s.head.diameter
  refine ⟨rfl, ?_, ?_, rfl, rfl⟩
  · rw [Head.bites, List.map_singleton, VoxelField.swept_singleton]
    exact hcarve.cut
  · obtain ⟨n, hn, hn'⟩ := hcarve.counted
    exact ⟨n, congrArg (s.removed + ·) (hn.trans (Nat.zero_add n)), hn'⟩

@[simp] theorem head_cut (s : Simulator R) (place : Vec3 R) : (s.cut place).head = s.head := rfl

theorem head_foldl_cut (s : Simulator R) (stations : List (Vec3 R)) :
    (stations.foldl cut s).head = s.head := by
  induction stations generalizing s with
  | nil => rfl
  | cons place stations ih => exact (ih (s.cut place)).trans (s.head_cut place)

theorem cuts_foldl_cut (s : Simulator R) (stations : List (Vec3 R)) :
    s.Cuts (s.head.bites stations) (stations.foldl cut s) := by
  induction stations generalizing s with
  | nil => exact .refl s
  | cons place stations ih => exact (s.cuts_cut place).trans (ih (s.cut place))

end

variable [Analytic R]

/-- The head obeys a line without regard to anything else. -/
theorem head_execute (s : Simulator R) (l : ProgramLine R) :
    (s.execute l).head = (s.head.obey s.step l).1 :=
  head_foldl_cut _ _

/-- **The step lemma**: what a line does to a simulator. -/
theorem cuts_execute (s : Simulator R) (l : ProgramLine R) :
    s.Cuts ((s.head.obey s.step l).1.bites (s.head.obey s.step l).2) (s.execute l) := by
  obtain ⟨hstep, hcut, hcounted, hsteps, hdistance⟩ :=
    cuts_foldl_cut { s with head := (s.head.obey s.step l).1 } (s.head.obey s.step l).2
  exact ⟨hstep, hcut, hcounted, hsteps, hdistance⟩

theorem run_eq [Numeral R] (s : Simulator R) (program : String) :
    s.run program = (ProgramLine.readAll program).foldl execute s :=
  List.foldl_map.symm

theorem head_foldl_execute (s : Simulator R) (lines : List (ProgramLine R)) :
    (lines.foldl execute s).head = s.head.after s.step lines := by
  induction lines generalizing s with
  | nil => rfl
  | cons l lines ih =>
    rw [List.foldl_cons, ih, head_execute, (s.cuts_execute l).step]
    rfl

theorem cuts_foldl_execute (s : Simulator R) (lines : List (ProgramLine R)) :
    s.Cuts (s.head.course s.step lines) (lines.foldl execute s) := by
  induction lines generalizing s with
  | nil => exact .refl s
  | cons l lines ih =>
    have hrest := ih (s.execute l)
    rw [head_execute, (s.cuts_execute l).step] at hrest
    exact (s.cuts_execute l).trans hrest

section

variable [Numeral R] (s : Simulator R) (program : String)

theorem head_run : (s.run program).head = s.head.after s.step (ProgramLine.readAll program) := by
  rw [run_eq, head_foldl_execute]

/-- **The run lemma**: what a program does to a simulator is told by the course of its head. -/
theorem cuts_run : s.Cuts (s.head.course s.step (ProgramLine.readAll program)) (s.run program) := by
  rw [run_eq]
  exact s.cuts_foldl_execute _

end

end Simulator

/-! ### Simulations -/

namespace Document

variable {S : Type}

/-- A document with other voxels. -/
def withVoxels (d : Document R S) (v : VoxelField R) : Document R S := { d with voxels := v }

@[simp] theorem voxels_withVoxels (d : Document R S) (v : VoxelField R) :
    (d.withVoxels v).voxels = v := rfl

@[simp] theorem material_withVoxels (d : Document R S) (v : VoxelField R) :
    (d.withVoxels v).material = d.material := rfl

@[simp] theorem stockIsValid_withVoxels [Scalar R] (d : Document R S) (v : VoxelField R) :
    (d.withVoxels v).stockIsValid = d.stockIsValid := rfl

/-- The document ready for a simulation, if it is one that can be simulated. -/
theorem eq_of_prepareStock [Scalar R] {d e : Document R S} {settings : SimulationSettings R}
    (h : d.prepareStock settings = .ok e) :
    e = if settings.reset then
      (d.fitVoxels settings.resolution).withVoxels (d.fitVoxels settings.resolution).voxels.reset
    else d.fitVoxels settings.resolution := by
  unfold prepareStock at h
  split at h
  · cases h
  · split at h
    · cases h
    · split at h
      · cases h
      · exact (Except.ok.inj h).symm

variable [Analytic R] [Numeral R]

/-- The simulator that a document starts with. -/
def simulator (d : Document R S) (diameter : R) : Simulator R :=
  .start d.voxels (.start d.material.origin ⟨0, 0, d.material.clearance⟩ diameter) d.simulationStep

/-- What a simulation returns, in terms of the simulator it runs. -/
theorem simulate_eq (d : Document R S) (program : String) (settings : SimulationSettings R) :
    d.simulate program settings = (d.prepareStock settings).map fun e =>
      (((e.simulator settings.toolDiameter).run program).report,
        e.withVoxels ((e.simulator settings.toolDiameter).run program).stock) := by
  rw [simulate]
  cases d.prepareStock settings <;> rfl

theorem exists_of_simulate {d d' : Document R S} {program : String}
    {settings : SimulationSettings R} {report : SimulationReport R}
    (h : d.simulate program settings = .ok (report, d')) :
    ∃ e, d.prepareStock settings = .ok e ∧
      report = ((e.simulator settings.toolDiameter).run program).report ∧
      d' = e.withVoxels ((e.simulator settings.toolDiameter).run program).stock := by
  rw [simulate_eq] at h
  cases hprepared : d.prepareStock settings with
  | error _ =>
    rw [hprepared] at h
    cases h
  | ok e =>
    rw [hprepared] at h
    cases h
    exact ⟨e, rfl, rfl, rfl⟩

end Document

namespace Simulator

variable {S : Type} [Analytic R] [Numeral R]

/-- **Every cell that is gone is reported, and none is reported twice.** A run keeps the grid, and a
cell as it is unless it cuts it; the solid cells that are missing afterwards are as many as the
report gained. From stock made solid first, they are all the cells that are not left. -/
theorem run_accounts :
    (∀ (s : Simulator R) (program : String),
      (s.run program).stock.SameGrid s.stock ∧
      (∀ c, (s.run program).stock.cell? c = s.stock.cell? c ∨
        (s.run program).stock.cell? c = some 0) ∧
      ∃ n, (s.run program).report.removed = s.report.removed + n ∧
        s.stock.solidCount = (s.run program).stock.solidCount + n) ∧
    ∀ (d d' : Document R S) (program : String) (settings : SimulationSettings R)
      (report : SimulationReport R), settings.reset = true →
      d.simulate program settings = .ok (report, d') →
      report.removed + d'.voxels.solidCount = d'.voxels.length := by
  constructor
  · intro s program
    have hrun := s.cuts_run program
    exact ⟨hrun.cut.grid, hrun.cut.cell?_eq_or, hrun.counted⟩
  · intro d d' program settings report hreset h
    obtain ⟨e, hprepared, rfl, rfl⟩ := d.exists_of_simulate h
    have hrun := (e.simulator settings.toolDiameter).cuts_run program
    have hsolid : e.voxels.solidCount = e.voxels.length := by
      rw [Document.eq_of_prepareStock hprepared, if_pos hreset]
      exact VoxelField.solidCount_reset _
    obtain ⟨n, hremoved, hcount⟩ := hrun.counted
    calc ((e.simulator settings.toolDiameter).run program).removed +
          ((e.simulator settings.toolDiameter).run program).stock.solidCount
        = n + ((e.simulator settings.toolDiameter).run program).stock.solidCount := by
          rw [hremoved]
          exact congrArg (· + _) (Nat.zero_add n)
      _ = e.voxels.solidCount := (Nat.add_comm _ _).trans hcount.symm
      _ = e.voxels.length := hsolid
      _ = ((e.simulator settings.toolDiameter).run program).stock.length :=
          hrun.cut.grid.length.symm

/-- A cube of one inch, divided into eight cells. -/
def cube : Project :=
  let d : Project := Document.new "cube"
  { d with material := { d.material with size := ⟨1, 1, 1⟩ } }.setResolution 2

theorem run_accounts_cube : ∃ report d',
    cube.simulate "G01 X0.25 Y0.25 Z-0.75 F10" .standard = .ok (report, d') ∧
      report.removed + d'.voxels.solidCount = d'.voxels.length := by
  have hok : (cube.simulate "G01 X0.25 Y0.25 Z-0.75 F10" .standard).isOk = true := by
    decide +kernel
  cases h : cube.simulate "G01 X0.25 Y0.25 Z-0.75 F10" .standard with
  | error _ =>
    rw [h] at hok
    cases hok
  | ok p => exact ⟨p.1, p.2, rfl, run_accounts.2 cube p.2 _ .standard p.1 rfl h⟩

end Simulator

end Toolpath
