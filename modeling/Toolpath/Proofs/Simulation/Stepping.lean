import Toolpath.Proofs.Number.Marks
import Toolpath.Proofs.Simulation.Legs

/-!
# How often a move cuts

A move cuts once for every step of its length, and once more at its target. A step that reaches the
target is not made, since the cut at the target stands for it; so in exact arithmetic a move cuts as
often as steps are begun, its length divided by the step and rounded up. Each cut counts as a step
of distance. A move is thereby reported as long as it is, or longer by less than one step.

A leg that is too short to be made is left out of the account, and leaves the machine as it was.

Lengths and angles are those of real numbers. An angle lies within half a turn on either side of
zero, so the end of an arc lies ahead of its start once it is moved by at most one turn.

## Main definitions

* `Simulator.Travels` — a simulator made moves of some lengths
* `Simulator.Carves` — a simulator cut at stations along a path and stopped at its end

## Main results

* `Path.sweep_pos` — an arc sweeps an angle
* `Simulator.Travels.excess` — what is reported beyond the lengths of the moves
* `Simulator.stepping_exact` — straight moves, arcs, lines and programs
-/

namespace Toolpath

/-! ### Real numbers -/

open Exact

variable {step length : ℝ} {along : ℝ → Vec3 ℝ} {start target : Vec3 ℝ} {center : Vec2 ℝ}

namespace Path

/-- An angle ends ahead of where it starts, and by no more than a turn. -/
theorem endAngle_ahead (clockwise : Bool) {a b : ℝ} (hab : a - b < Analytic.turn)
    (hba : b - a < Analytic.turn) :
    0 < |endAngle clockwise a b - a| ∧ |endAngle clockwise a b - a| ≤ Analytic.turn := by
  rw [endAngle]
  cases clockwise with
  | false =>
    rw [if_neg Bool.false_ne_true]
    split
    · rw [abs_of_pos (by linarith)]
      constructor <;> linarith
    · rw [abs_of_pos (by linarith)]
      constructor <;> linarith
  | true =>
    rw [if_pos rfl]
    split
    · rw [abs_of_neg (by linarith)]
      constructor <;> linarith
    · rw [abs_of_neg (by linarith)]
      constructor <;> linarith

/-- **An arc sweeps an angle**, of a turn at most. -/
theorem sweep_pos (clockwise : Bool) (start target : Vec3 ℝ) (center : Vec2 ℝ) :
    0 < sweep clockwise start target center ∧
      sweep clockwise start target center ≤ Analytic.turn := by
  have hturn : (Analytic.turn : ℝ) = Real.pi + Real.pi :=
    (congrArg (· * Real.pi) Nat.cast_ofNat).trans (two_mul Real.pi)
  have hrange (place : Vec3 ℝ) : -Real.pi < bearing place center ∧ bearing place center ≤ Real.pi :=
    Complex.arg_mem_Ioc _
  obtain ⟨hstart, hstart'⟩ := hrange start
  obtain ⟨htarget, htarget'⟩ := hrange target
  exact endAngle_ahead clockwise (by rw [hturn]; linarith) (by rw [hturn]; linarith)

end Path

/-- Stations along a path: a step apart, the last at the target. -/
structure Path.Stepped (step length : ℝ) (along : ℝ → Vec3 ℝ) (target : Vec3 ℝ)
    (stations : List (Vec3 ℝ)) : Prop where
  /-- There is one for every step that is begun. -/
  count : stations.length = ⌈length / step⌉₊
  /-- All but the last are multiples of the step away from the start. -/
  between : ∀ k, k + 1 < stations.length → stations[k]? = some (along ((k + 1 : ℕ) * step))
  /-- The last is the target. -/
  last : stations.getLast? = some target

theorem Path.stepped_marks (hstep : 0 < step) (hlength : 0 < length) :
    Path.Stepped step length along target ((Scalar.marks step length).map along ++ [target]) := by
  have hceil : 0 < ⌈length / step⌉₊ := Nat.ceil_pos.mpr (div_pos hlength hstep)
  have hmarks : (Scalar.marks step length).length = ⌈length / step⌉₊ - 1 := by
    rw [marks_eq hstep, multiples, List.length_map, List.length_range']
  refine ⟨?_, fun k hk => ?_, List.getLast?_concat⟩
  · rw [List.length_append, List.length_map, hmarks, List.length_singleton]
    omega
  · rw [List.length_append, List.length_map, hmarks, List.length_singleton] at hk
    have hlt : k < ⌈length / step⌉₊ - 1 := by omega
    rw [List.getElem?_append_left (by rwa [List.length_map, hmarks]), List.getElem?_map,
      marks_eq hstep, multiples, List.getElem?_map, List.getElem?_range' hlt, Nat.zero_add,
      Nat.one_mul, Nat.add_comm 1 k]
    rfl

namespace Path

/-- A straight move that is not too short has its stations a step apart. -/
theorem stepped_straight (hstep : 0 < step) (h : Scalar.precision ≤ (target - start).norm) :
    Stepped step (target - start).norm (onLine start target) target
      (straight step start target) := by
  rw [straight_of_not_short step (not_lt.mpr h)]
  exact stepped_marks hstep (precision_pos.trans_le h)

/-- An arc that is not too small has its stations a step apart, by the length of the arc. -/
theorem stepped_arc (hstep : 0 < step) (clockwise : Bool)
    (h : Scalar.precision ≤ radius start center) :
    Stepped step (radius start center * sweep clockwise start target center)
      (fun travelled => onArc clockwise start target center (travelled / radius start center))
      target (arc step clockwise start target center) := by
  have hradius : 0 < radius start center := precision_pos.trans_le h
  rw [arc_of_not_small step clockwise target (not_lt.mpr h), marks_div hstep hradius, List.map_map]
  exact stepped_marks hstep (mul_pos hradius (sweep_pos clockwise start target center).1)

end Path

/-! ### Distances -/

/-- The number of steps begun on moves of some lengths. -/
noncomputable def stepsOn (step : ℝ) (lengths : List ℝ) : ℕ :=
  (lengths.map fun length => ⌈length / step⌉₊).sum

theorem stepsOn_cons (step length : ℝ) (lengths : List ℝ) :
    stepsOn step (length :: lengths) = ⌈length / step⌉₊ + stepsOn step lengths := List.sum_cons

theorem stepsOn_append (step : ℝ) (lengths more : List ℝ) :
    stepsOn step (lengths ++ more) = stepsOn step lengths + stepsOn step more := by
  rw [stepsOn, List.map_append, List.sum_append]
  rfl

/-- The steps begun on one move are as long as it is, or longer by less than a step. -/
theorem ceil_mul (hstep : 0 < step) (hlength : 0 ≤ length) :
    length ≤ ⌈length / step⌉₊ * step ∧ ⌈length / step⌉₊ * step < length + step := by
  have hlow := Nat.le_ceil (length / step)
  have hhigh := Nat.ceil_lt_add_one (div_nonneg hlength hstep.le)
  constructor
  · exact (div_le_iff₀ hstep).mp hlow
  · calc (⌈length / step⌉₊ : ℝ) * step < (length / step + 1) * step :=
          mul_lt_mul_of_pos_right hhigh hstep
      _ = length + step := by rw [add_one_mul, div_mul_cancel₀ _ hstep.ne']

/-- The steps begun on moves are as long as these, or longer by less than a step for each. -/
theorem stepsOn_mul (hstep : 0 < step) {lengths : List ℝ} (h : ∀ a ∈ lengths, 0 ≤ a) :
    lengths.sum ≤ stepsOn step lengths * step ∧
      (lengths ≠ [] → stepsOn step lengths * step < lengths.sum + lengths.length * step) := by
  induction lengths with
  | nil => exact ⟨by simp [stepsOn], fun hne => absurd rfl hne⟩
  | cons length lengths ih =>
    obtain ⟨hlength, hrest⟩ := List.forall_mem_cons.mp h
    obtain ⟨hlow, hhigh⟩ := ceil_mul hstep hlength
    obtain ⟨ihlow, ihhigh⟩ := ih hrest
    rw [stepsOn_cons, List.sum_cons, List.length_cons, Nat.cast_add, Nat.cast_succ, add_mul,
      add_one_mul]
    refine ⟨by linarith, fun _ => ?_⟩
    by_cases hnil : lengths = []
    · subst hnil
      simpa [stepsOn] using hhigh
    · have hmore := ihhigh hnil
      linarith

namespace Simulator

/-- From `s` to `s'` a simulator made moves of some lengths. -/
structure Travels (s : Simulator ℝ) (lengths : List ℝ) (s' : Simulator ℝ) : Prop where
  /-- The step stays. -/
  step : s'.step = s.step
  /-- Every step that is begun is counted. -/
  steps : s'.steps = s.steps + stepsOn s.step lengths
  /-- Every step that is begun is a distance covered. -/
  distance : s'.distance = s.distance + stepsOn s.step lengths * s.step

variable {s s' s'' : Simulator ℝ} {lengths more : List ℝ}

theorem Travels.refl (s : Simulator ℝ) : s.Travels [] s :=
  ⟨rfl, rfl, by simp [stepsOn]⟩

theorem Travels.trans (h : s.Travels lengths s') (h' : s'.Travels more s'') :
    s.Travels (lengths ++ more) s'' where
  step := h'.step.trans h.step
  steps := by rw [h'.steps, h.steps, h.step, stepsOn_append, Nat.add_assoc]
  distance := by
    rw [h'.distance, h.distance, h.step, stepsOn_append, Nat.cast_add, add_mul]
    exact add_assoc _ _ _

/-- **What is reported beyond the lengths of the moves** is less than a step for each of them. -/
theorem Travels.excess (hstep : 0 < s.step) (h : ∀ a ∈ lengths, 0 ≤ a)
    (htravels : s.Travels lengths s') :
    s.distance + lengths.sum ≤ s'.distance ∧
      (lengths ≠ [] → s'.distance < s.distance + lengths.sum + lengths.length * s.step) := by
  obtain ⟨hlow, hhigh⟩ := stepsOn_mul hstep h
  rw [htravels.distance]
  refine ⟨by linarith, fun hne => ?_⟩
  have := hhigh hne
  linarith

theorem Travels.of_cuts {bites : List (Bite ℝ)} (h : s.Cuts bites s')
    (hbites : bites.length = stepsOn s.step lengths) : s.Travels lengths s' where
  step := h.step
  steps := by rw [h.steps, hbites]
  distance := by
    have hiterate (n : ℕ) : (· + s.step)^[n] s.distance = s.distance + n * s.step := by
      rw [← nsmul_eq_mul]
      exact congrFun (add_right_iterate s.step n) s.distance
    rw [h.distance, hbites, hiterate]

end Simulator

/-! ### Legs and lines -/

/-- A leg has a length that is not negative. -/
theorem Leg.lengths_nonneg (start : Vec3 ℝ) (leg : Leg ℝ) : ∀ a ∈ leg.lengths start, 0 ≤ a := by
  have hline (target : Vec3 ℝ) : ∀ a ∈ lineLengths start target, 0 ≤ a := by
    intro a ha
    rw [lineLengths] at ha
    split at ha
    · cases ha
    · rw [List.mem_singleton.mp ha]
      exact Real.sqrt_nonneg _
  cases leg with
  | straight target => exact hline target
  | arc clockwise center target =>
    intro a ha
    rw [lengths] at ha
    split at ha
    · exact hline target a ha
    · rename_i hlarge
      rw [List.mem_singleton.mp ha]
      exact mul_nonneg (precision_pos.le.trans (not_lt.mp hlarge))
        (Path.sweep_pos clockwise start target center).1.le
  | jump target => exact fun a ha => absurd ha List.not_mem_nil

/-- The moves of lines have lengths that are not negative. -/
theorem Head.travelled_nonneg (step : ℝ) (h : Head ℝ) (lines : List (ProgramLine ℝ)) :
    ∀ a ∈ h.travelled step lines, 0 ≤ a := by
  have hlegs (legs : List (Leg ℝ)) : ∀ (h : Head ℝ), ∀ a ∈ h.legLengths step legs, 0 ≤ a := by
    induction legs with
    | nil => exact fun _ a ha => absurd ha List.not_mem_nil
    | cons leg legs ih =>
      intro h a ha
      exact (List.mem_append.mp ha).elim (leg.lengths_nonneg h.position a) (ih _ a)
  induction lines generalizing h with
  | nil => exact fun a ha => absurd ha List.not_mem_nil
  | cons l lines ih =>
    intro a ha
    exact (List.mem_append.mp ha).elim (hlegs _ _ a) (ih _ a)

/-- A leg has as many stations as steps are begun on it. -/
theorem Leg.length_stations (hstep : 0 < step) (start : Vec3 ℝ) (leg : Leg ℝ) :
    (leg.stations step start).length = stepsOn step (leg.lengths start) := by
  have hline (target : Vec3 ℝ) :
      (Path.straight step start target).length = stepsOn step (lineLengths start target) := by
    rw [lineLengths]
    split
    · rename_i hshort
      rw [Path.straight_of_short step hshort]
      rfl
    · rename_i hlong
      rw [stepsOn_cons]
      exact (Path.stepped_straight hstep (not_lt.mp hlong)).count
  cases leg with
  | straight target => exact hline target
  | arc clockwise center target =>
    rw [lengths, stations]
    split
    · rename_i hsmall
      rw [Path.arc_of_small step clockwise target hsmall]
      exact hline target
    · rename_i hlarge
      rw [stepsOn_cons]
      exact (Path.stepped_arc hstep clockwise (not_lt.mp hlarge)).count
  | jump target => rfl

namespace Simulator

variable {s : Simulator ℝ}

theorem travels_follow (hstep : 0 < s.step) (leg : Leg ℝ) :
    s.Travels (leg.lengths s.head.position) (s.follow leg) := by
  refine .of_cuts (s.cuts_follow leg) ?_
  rw [Head.bites, List.length_map, leg.length_stations hstep]

theorem travels_foldl_follow (hstep : 0 < s.step) (legs : List (Leg ℝ)) :
    s.Travels (s.head.legLengths s.step legs) (legs.foldl follow s) := by
  induction legs generalizing s with
  | nil => exact .refl s
  | cons leg legs ih =>
    have hleg := travels_follow hstep leg
    have hrest := ih (s := s.follow leg) (hleg.step ▸ hstep)
    rw [hleg.step, head_follow] at hrest
    exact hleg.trans hrest

/-- **The step lemma**: a line makes the moves of its legs. -/
theorem travels_execute (hstep : 0 < s.step) (l : ProgramLine ℝ) :
    s.Travels ((s.head.prepare l).legLengths s.step ((s.head.prepare l).legs l)) (s.execute l) := by
  rw [execute_eq_follow]
  obtain ⟨hstays, hsteps, hdistance⟩ := travels_foldl_follow
    (s := { s with head := s.head.prepare l }) hstep ((s.head.prepare l).legs l)
  exact ⟨hstays, hsteps, hdistance⟩

/-- **The run lemma**: lines make the moves of their legs, one after the other. -/
theorem travels_foldl_execute (hstep : 0 < s.step) (lines : List (ProgramLine ℝ)) :
    s.Travels (s.head.travelled s.step lines) (lines.foldl execute s) := by
  induction lines generalizing s with
  | nil => exact .refl s
  | cons l lines ih =>
    have hline := travels_execute hstep l
    have hrest := ih (s := s.execute l) (hline.step ▸ hstep)
    rw [head_execute, hline.step] at hrest
    exact hline.trans hrest

/-- A vector divided by its length is as long as one. -/
theorem norm_divBy_norm {v : Vec3 ℝ} (hv : 0 < v.norm) : (v.divBy v.norm).norm = 1 := by
  have hsquare : v.norm * v.norm = v.normSq :=
    Real.mul_self_sqrt (add_nonneg (add_nonneg (mul_self_nonneg _) (mul_self_nonneg _))
      (mul_self_nonneg _))
  have hunit : (v.divBy v.norm).normSq = 1 := by
    calc (v.divBy v.norm).normSq = v.normSq / (v.norm * v.norm) := by
          rw [Vec3.normSq, Vec3.normSq, Vec3.divBy]
          ring
      _ = 1 := by rw [← hsquare, div_self (mul_pos hv hv).ne']
  show Real.sqrt (v.divBy v.norm).normSq = 1
  rw [hunit, Real.sqrt_one]

/-- A simulator cut at stations along a path of a length, a step apart, and stopped at its end. -/
structure Carves (s : Simulator ℝ) (length : ℝ) (along : ℝ → Vec3 ℝ) (target : Vec3 ℝ)
    (stations : List (Vec3 ℝ)) (s' : Simulator ℝ) : Prop where
  /-- The stations are a step apart, and the last is the target. -/
  stepped : Path.Stepped s.step length along target stations
  /-- The tool cuts at the stations. -/
  cuts : s.Cuts (s.head.bites stations) s'
  /-- The tool stops at the target. -/
  head : s'.head = s.head.placed target
  /-- It makes a step for every step that is begun. -/
  steps : s'.steps = s.steps + ⌈length / s.step⌉₊
  /-- The distance is no less than the length. -/
  least : s.distance + length ≤ s'.distance
  /-- It is greater by less than a step. -/
  excess : s'.distance < s.distance + length + s.step

theorem carves_of_stepped (hstep : 0 < s.step) {length : ℝ} (hlength : 0 ≤ length)
    {along : ℝ → Vec3 ℝ} {target : Vec3 ℝ} {stations : List (Vec3 ℝ)}
    (h : Path.Stepped s.step length along target stations) :
    s.Carves length along target stations ((stations.foldl cut s).placed
      (Path.finish s.head.position stations)) := by
  have hcuts := s.cuts_foldl_cut stations
  have htravels : s.Travels [length] (stations.foldl cut s) := by
    refine .of_cuts hcuts ?_
    rw [Head.bites, List.length_map, h.count, stepsOn_cons]
    rfl
  obtain ⟨hleast, hexcess⟩ := htravels.excess hstep (List.forall_mem_singleton.mpr hlength)
  have hmost := hexcess (List.cons_ne_nil _ _)
  rw [List.sum_singleton, List.length_singleton, Nat.cast_one, one_mul] at hmost
  rw [List.sum_singleton] at hleast
  refine ⟨h, hcuts.placed _, ?_, ?_, hleast, hmost⟩
  · rw [Path.finish, h.last]
    exact congrArg (Head.placed · target) (head_foldl_cut s stations)
  · rw [← h.count, ← List.length_map]
    exact hcuts.steps

/-- **Stepping ends, and counts right.** The loops end. A straight move that is too short does
nothing, and any other one cuts as often as steps are begun on its length. So does an arc by the
length of the arc, unless it is so small that it is a straight move. Lines make such moves one after
the other, and what they report is as long as these, or longer by less than a step for each. -/
theorem stepping_exact (s : Simulator ℝ) (hstep : 0 < s.step) :
    (∀ target : Vec3 ℝ,
      let start := s.head.position
      let length := (target - start).norm
      let stations := Path.straight s.step start target
      (length < Scalar.precision → stations = [] ∧ s.follow (.straight target) = s) ∧
      (Scalar.precision ≤ length →
        Scalar.Accumulates s.step length s.step (Scalar.marks s.step length) ∧
        ((target - start).divBy length).norm = 1 ∧
        s.Carves length (fun travelled => start + ((target - start).divBy length).scale travelled)
          target stations (s.follow (.straight target)))) ∧
    (∀ (clockwise : Bool) (center : Vec2 ℝ) (target : Vec3 ℝ),
      let start := s.head.position
      let radius := Path.radius start center
      let sweep := Path.sweep clockwise start target center
      let stations := Path.arc s.step clockwise start target center
      let leg := Leg.arc clockwise center target
      (radius < Scalar.precision → s.follow leg = s.follow (.straight target)) ∧
      (Scalar.precision ≤ radius →
        Scalar.Accumulates (s.step / radius) sweep (s.step / radius)
          (Scalar.marks (s.step / radius) sweep) ∧
        (0 < sweep ∧ sweep ≤ Analytic.turn) ∧
        s.Carves (radius * sweep)
          (fun travelled => Path.onArc clockwise start target center (travelled / radius))
          target stations (s.follow leg))) ∧
    (∀ l : ProgramLine ℝ, s.execute l =
      ((s.head.prepare l).legs l).foldl follow { s with head := s.head.prepare l }) ∧
    ∀ lines : List (ProgramLine ℝ),
      let lengths := s.head.travelled s.step lines
      let s' := lines.foldl execute s
      s.Travels lengths s' ∧ s.distance + lengths.sum ≤ s'.distance ∧
        (lengths ≠ [] → s'.distance < s.distance + lengths.sum + lengths.length * s.step) := by
  refine ⟨fun target => ⟨fun hshort => ?_, fun hlong => ?_⟩,
    fun clockwise center target => ⟨fun hsmall => ?_, fun hlarge => ?_⟩, s.execute_eq_follow,
    fun lines => ?_⟩
  · exact ⟨Path.straight_of_short s.step hshort, follow_of_short hshort⟩
  · have hpositive := precision_pos.trans_le hlong
    exact ⟨accumulates_marks hstep _, norm_divBy_norm hpositive,
      carves_of_stepped hstep hpositive.le (Path.stepped_straight hstep hlong)⟩
  · show ((Path.arc s.step clockwise s.head.position target center).foldl cut s).placed
      (Path.finish s.head.position (Path.arc s.step clockwise s.head.position target center)) = _
    rw [Path.arc_of_small s.step clockwise target hsmall]
    rfl
  · have hradius := precision_pos.trans_le hlarge
    have hsweep := Path.sweep_pos clockwise s.head.position target center
    exact ⟨accumulates_marks (div_pos hstep hradius) _, hsweep,
      carves_of_stepped hstep (mul_nonneg hradius.le hsweep.1.le)
        (Path.stepped_arc hstep clockwise hlarge)⟩
  · have htravels := travels_foldl_execute hstep lines
    exact ⟨htravels, htravels.excess hstep (Head.travelled_nonneg s.step s.head lines)⟩

/-- A move of five steps cuts five times, and no sixth time at its target. -/
theorem stepping_exact_five :
    let head : Head ℝ := .start ⟨0, 0, 0⟩ ⟨0, 0, 0⟩ 1
    let s : Simulator ℝ := .start (.solid 4 ⟨1, 1, 1⟩) head 1
    let s' := s.follow (.straight ⟨5, 0, 0⟩)
    0 < s.step ∧ s'.steps = 5 ∧ s'.head.position = ⟨5, 0, 0⟩ := by
  intro head s s'
  have hstep : 0 < s.step := zero_lt_one
  have hlength : ((⟨5, 0, 0⟩ : Vec3 ℝ) - s.head.position).norm = ((5 : ℕ) : ℝ) := by
    have hsquare : ((⟨5, 0, 0⟩ : Vec3 ℝ) - s.head.position).normSq = ((5 : ℕ) : ℝ) * (5 : ℕ) := by
      show (5 - 0) * (5 - 0) + (0 - 0) * (0 - 0) + (0 - 0) * (0 - 0) = ((5 : ℕ) : ℝ) * (5 : ℕ)
      rw [sub_zero, sub_zero, mul_zero, add_zero, add_zero]
      rfl
    show Real.sqrt _ = _
    rw [hsquare, Real.sqrt_mul_self (Nat.cast_nonneg 5)]
  have hlong : Scalar.precision ≤ ((⟨5, 0, 0⟩ : Vec3 ℝ) - s.head.position).norm := by
    rw [hlength]
    show ((1 : ℕ) : ℝ) / (100000 : ℕ) ≤ (5 : ℕ)
    norm_num
  obtain ⟨hline, -⟩ := stepping_exact s hstep
  obtain ⟨-, -, hcarves⟩ := (hline ⟨5, 0, 0⟩).2 hlong
  refine ⟨hstep, ?_, ?_⟩
  · rw [hcarves.steps, hlength]
    show 0 + ⌈((5 : ℕ) : ℝ) / 1⌉₊ = 5
    rw [div_one, Nat.ceil_natCast]
  · rw [hcarves.head]
    rfl

end Simulator

end Toolpath
