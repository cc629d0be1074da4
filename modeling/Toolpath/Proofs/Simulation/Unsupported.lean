import Toolpath.Proofs.Simulation.Holes

/-!
# Unsupported preparatory functions

A line can name a preparatory function that means nothing to a simulation. The function itself does
nothing, but the line has not been skipped: coordinates on it are still a target, and the motion in
effect leads there. So a line that is meant as some motion unknown here is executed as one of
another kind. A drilling cycle plays no part, because a line with a function drills only if it
defines the cycle.

What such a line does is told whole by the modes it is read with. It leaves the machine as it was
exactly if it has no coordinate, or if the motion in effect would lead nowhere.

## Main definitions

* `Head.isUnsupported` — a code is neither implemented nor known to play no part
* `Head.Rests` — the motion in effect leads nowhere
* `Simulator.Stays` — a simulator is where it was and has cut nothing

## Main results

* `Head.obey_of_not_selects` — without a motion on it, a line is a move in the motion in effect
* `Simulator.stays_execute_iff` — when a line with an unsupported code changes nothing
* `Simulator.exists_not_stays` — such a line can move the tool
-/

namespace Toolpath

variable {R : Type}

/-! ### Moves that lead nowhere -/

namespace Path

variable [Analytic R]

theorem straight_eq_nil_iff (step : R) (start target : Vec3 R) :
    straight step start target = [] ↔ (target - start).norm < Scalar.precision := by
  rw [straight]
  split_ifs with hshort
  · exact iff_of_true rfl hshort
  · exact iff_of_false (List.concat_ne_nil _ _) hshort

theorem arc_eq_nil_iff (step : R) (clockwise : Bool) (start target : Vec3 R) (center : Vec2 R) :
    arc step clockwise start target center = [] ↔
      Analytic.hypot (start.x - center.x) (start.y - center.y) < Scalar.precision ∧
        (target - start).norm < Scalar.precision := by
  rw [arc]
  split_ifs with hsmall
  · rw [straight_eq_nil_iff, and_iff_right hsmall]
  · exact iff_of_false (List.concat_ne_nil _ _) fun h => hsmall h.1

end Path

namespace Head

section

variable [Scalar R]

/-- Whether a code selects a motion, or defines or ends a drilling cycle. -/
def selects (code : R) : Bool := isOneOf code [0, 1, 2, 3, 80, 81, 82, 83]

/-- Whether a code says how coordinates are meant. -/
def setsCoordinates (code : R) : Bool := isOneOf code [90, 91]

/-- Whether a code is known to play no part for the stock: dwell, plane, units, compensation and
coordinate systems. -/
def isInert (code : R) : Bool := isOneOf code [4, 17, 20, 21, 40, 43, 49, 54, 55, 56, 57, 58, 59]

/-- Whether a code is neither implemented nor known to play no part. -/
def isUnsupported (code : R) : Bool := !selects code && !setsCoordinates code && !isInert code

/-- A code that selects nothing says at most how coordinates are meant. -/
theorem prepared_of_not_selects {code : R} (hcode : selects code = false) (l : ProgramLine R)
    (h : Head R) : ∃ incremental, prepared l h code = { h with incremental } := by
  simp only [selects, isOneOf, List.any_cons, List.any_nil, Bool.or_false, Bool.or_eq_false_iff]
    at hcode
  obtain ⟨hrapid, hstraight, hclockwise, hcounter, hcancel, hfirst, hsecond, hthird⟩ := hcode
  simp only [prepared, definesCycle, isOneOf, List.any_cons, List.any_nil, Bool.or_false, hrapid,
    hstraight, hclockwise, hcounter, hcancel, hfirst, hsecond, hthird, Bool.false_eq_true, if_false]
  split_ifs <;> exact ⟨_, rfl⟩

theorem foldl_prepared_of_not_selects {codes : List R} (hcodes : ∀ c ∈ codes, selects c = false)
    (l : ProgramLine R) (h : Head R) :
    ∃ incremental, codes.foldl (prepared l) h = { h with incremental } := by
  induction codes generalizing h with
  | nil => exact ⟨h.incremental, rfl⟩
  | cons code codes ih =>
    obtain ⟨hcode, hrest⟩ := List.forall_mem_cons.mp hcodes
    obtain ⟨_, hfirst⟩ := prepared_of_not_selects hcode l h
    obtain ⟨incremental, hall⟩ := ih hrest (prepared l h code)
    exact ⟨incremental, by rw [List.foldl_cons, hall, hfirst]⟩

/-- **What selects nothing keeps the motion and the cycle**, and the place. -/
theorem prepare_of_not_selects {l : ProgramLine R}
    (hcodes : ∀ c ∈ l.values 'G', selects c = false) (h : Head R) :
    (h.prepare l).position = h.position ∧ (h.prepare l).mode = h.mode ∧
      (h.prepare l).cycle = h.cycle := by
  obtain ⟨_, _, _, hinformed⟩ := h.informed_eq l
  obtain ⟨_, hprepared⟩ := foldl_prepared_of_not_selects hcodes l (h.informed l)
  rw [prepare_eq, hprepared, hinformed]
  exact ⟨rfl, rfl, rfl⟩

theorem definesCycle_of_not_selects {code : R} (hcode : selects code = false) :
    definesCycle code = false := by
  rw [selects, isOneOf, List.any_eq_false] at hcode
  rw [definesCycle, isOneOf, List.any_eq_false]
  exact fun n hn => hcode n (List.mem_of_mem_drop (i := 5) hn)

end

variable [Analytic R] {step : R} {h : Head R} {l : ProgramLine R}

/-- The move to the target of a line in the motion in effect, if the line has a coordinate. -/
def modalMove (step : R) (h : Head R) (l : ProgramLine R) : Vec3 R × List (Vec3 R) :=
  if l.hasAxis then move step h l (h.target l) else (h.position, [])

/-- **A line with codes of which none selects anything is a move in the motion in effect**, also
while a drilling cycle is active. -/
theorem obey_of_not_selects (hG : l.values 'G' ≠ [])
    (hcodes : ∀ c ∈ l.values 'G', selects c = false) :
    h.obey step l = ({ h.prepare l with position := (modalMove step (h.prepare l) l).1 },
      (modalMove step (h.prepare l) l).2) := by
  have hhasG : l.hasG = true := by
    by_contra hno
    exact hG (l.values_eq_nil (Bool.eq_false_iff.mpr hno) List.mem_cons_self)
  have hnone : (l.values 'G').any definesCycle = false :=
    List.any_eq_false.mpr fun c hc => by
      rw [definesCycle_of_not_selects (hcodes c hc)]
      exact Bool.false_ne_true
  have hdrilling : ((h.prepare l).cycle.filter
      fun _ => (l.values 'G').any definesCycle || !l.hasG) = none := by
    rw [hnone, hhasG]
    cases (h.prepare l).cycle <;> rfl
  rw [obey, motion, hdrilling]
  rfl

/-- **The motion in effect leads nowhere.** A straight move is shorter than the precision. An arc is
one around a center closer than that, and then a straight move; or it has no center, and ends where
it starts. -/
def Rests (h : Head R) (l : ProgramLine R) : Prop :=
  let short := (h.target l - h.position).norm < Scalar.precision
  match h.mode, l.value? 'I', l.value? 'J' with
  | .rapid, _, _ | .straight, _, _ => short
  | .arc _, none, none => h.target l = h.position
  | .arc _, i, j =>
    let center : Vec2 R := ⟨h.position.x + i.getD 0, h.position.y + j.getD 0⟩
    Analytic.hypot (h.position.x - center.x) (h.position.y - center.y) < Scalar.precision ∧ short

omit [Analytic R] in
/-- Without stations the tool stays. -/
theorem finish_stations_iff (here : Vec3 R) (stations : List (Vec3 R)) :
    (Path.finish here stations, stations) = (here, []) ↔ stations = [] := by
  refine ⟨congrArg Prod.snd, ?_⟩
  rintro rfl
  rfl

theorem move_eq_iff : move step h l (h.target l) = (h.position, []) ↔ h.Rests l := by
  unfold move Rests
  cases h.mode with
  | rapid => exact (finish_stations_iff _ _).trans (Path.straight_eq_nil_iff _ _ _)
  | straight => exact (finish_stations_iff _ _).trans (Path.straight_eq_nil_iff _ _ _)
  | arc clockwise =>
    cases l.value? 'I' with
    | none =>
      cases l.value? 'J' with
      | none => exact ⟨congrArg Prod.fst, fun htarget => congrArg (·, []) htarget⟩
      | some j => exact (finish_stations_iff _ _).trans (Path.arc_eq_nil_iff _ _ _ _ _)
    | some i => exact (finish_stations_iff _ _).trans (Path.arc_eq_nil_iff _ _ _ _ _)

theorem modalMove_eq_iff (step : R) :
    modalMove step h l = (h.position, []) ↔ l.hasAxis = false ∨ h.Rests l := by
  rw [modalMove]
  cases l.hasAxis with
  | false => simp
  | true => simpa using move_eq_iff

end Head

namespace Simulator

/-- A simulator is where it was, has cut nothing and drills as before. -/
structure Stays (s s' : Simulator R) : Prop where
  /-- The tool is where it was. -/
  position : s'.head.position = s.head.position
  /-- The stock is as it was. -/
  stock : s'.stock = s.stock
  /-- No step was made. -/
  steps : s'.steps = s.steps
  /-- No distance was covered. -/
  distance : s'.distance = s.distance
  /-- The same cycle is active, if one is. -/
  cycle : s'.head.cycle = s.head.cycle

variable [Analytic R]

/-- A line executed, with its stations one after the other. -/
theorem execute_eq (s : Simulator R) (l : ProgramLine R) :
    s.execute l = (s.head.obey s.step l).2.foldl cut { s with head := (s.head.obey s.step l).1 } :=
  rfl

/-- **When a line with an unsupported code changes nothing.** If no other code on it selects a
motion or a cycle, the motion in effect and the cycle are kept, and the line is a move in that
motion. So it changes nothing exactly if it has no coordinate, or the move leads nowhere. -/
theorem stays_execute_iff (s : Simulator R) (l : ProgramLine R)
    (hunsupported : ∃ c ∈ l.values 'G', Head.isUnsupported c = true)
    (hselects : ∀ c ∈ l.values 'G', Head.selects c = false) :
    let h := s.head.prepare l
    let moved := Head.modalMove s.step h l
    (h.position = s.head.position ∧ h.mode = s.head.mode ∧ h.cycle = s.head.cycle) ∧
    (s.execute l).head = { h with position := moved.1 } ∧
    s.Cuts (h.bites moved.2) (s.execute l) ∧
    (s.Stays (s.execute l) ↔ l.hasAxis = false ∨ h.Rests l) := by
  intro h moved
  obtain ⟨c, hc, -⟩ := hunsupported
  have hkept := Head.prepare_of_not_selects hselects s.head
  have hobey : s.head.obey s.step l = ({ h with position := moved.1 }, moved.2) :=
    Head.obey_of_not_selects (List.ne_nil_of_mem hc) hselects
  have hhead : (s.execute l).head = { h with position := moved.1 } := by
    rw [head_execute, hobey]
  have hcuts : s.Cuts (h.bites moved.2) (s.execute l) := by
    have hcuts := s.cuts_execute l
    rw [hobey] at hcuts
    exact hcuts
  refine ⟨hkept, hhead, hcuts, ?_⟩
  rw [← Head.modalMove_eq_iff s.step]
  constructor
  · intro hstays
    have hposition : moved.1 = h.position := by
      rw [hkept.1, ← hstays.position, hhead]
    -- every station is a step
    have hlength : (h.bites moved.2).length = 0 := by
      have := hcuts.steps
      rw [hstays.steps] at this
      omega
    rw [Head.bites, List.length_map] at hlength
    exact Prod.ext hposition (List.length_eq_zero_iff.mp hlength)
  · intro hmoved
    have hmoved : moved = (h.position, []) := hmoved
    rw [execute_eq, hobey, hmoved]
    exact ⟨hkept.1, rfl, rfl, rfl, hkept.2.2⟩

/-- A line without coordinates changes nothing, here while a drilling cycle is active. -/
theorem stays_execute_drilling :
    let s := (cube.simulator (1 / 8)).execute (.read "G83 Z-0.25 R0.25".toList)
    s.head.cycle.isSome = true ∧ s.Stays (s.execute (.read "G05 F2".toList)) := by
  intro s
  refine ⟨by decide +kernel, (stays_execute_iff s _ ?_ ?_).2.2.2.mpr (.inl ?_)⟩
  · decide +kernel
  · decide +kernel
  · decide +kernel

/-- A line with a coordinate moves the tool although its only code is unsupported. -/
theorem exists_not_stays : ∃ (s : Simulator Double) (l : ProgramLine Double),
    (∃ c ∈ l.values 'G', Head.isUnsupported c = true) ∧
    (∀ c ∈ l.values 'G', Head.selects c = false) ∧ ¬s.Stays (s.execute l) := by
  refine ⟨cube.simulator (1 / 8), ProgramLine.read "G05 X1".toList, by decide +kernel,
    by decide +kernel, fun hstays => ?_⟩
  have hmoves : (((cube.simulator (1 / 8)).head.obey (cube.simulator (1 / 8)).step
      (ProgramLine.read "G05 X1".toList)).1.position.x == (1 : Double)) = true := by
    decide +kernel
  have hplace := congrArg (fun p : Vec3 Double => p.x == 1) hstays.position
  rw [head_execute, hmoves] at hplace
  exact absurd hplace (by decide +kernel)

end Simulator

end Toolpath
