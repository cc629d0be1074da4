import Toolpath.Proofs.Simulation.Holes

/-!
# The legs of a line

What a line does is told by its `Leg`s, one after the other: a straight move, an arc, or a jump
without a cut, which is what an arc without a center is. A drilled hole is three straight moves, and
any other line is one move at most. `Simulator.follow` makes a leg, and a line is executed by
following its legs once the head is prepared for it. So what is to be shown of programs is shown of
a leg first, whatever the arithmetic.

## Main definitions

* `Leg`, `Head.legs` — the moves of a line
* `Simulator.follow` — a simulator that makes one
* `Leg.lengths`, `Head.travelled` — the lengths of the moves that are made

## Main results

* `Head.legs_of_hole?`, `Head.legs_of_hole?_eq_none` — a line that drills has three straight legs,
  any other one at most
* `Simulator.execute_eq_follow` — a line is executed leg by leg
-/

namespace Toolpath

variable {R : Type}

/-! ### Paths -/

namespace Path

theorem finish_append (here : Vec3 R) (as bs : List (Vec3 R)) :
    finish here (as ++ bs) = finish (finish here as) bs := by
  rw [finish, finish, finish, List.getLast?_append]
  cases bs.getLast? <;> rfl

variable [Analytic R]

/-- The place on a straight move after some of its length. -/
def onLine (start target : Vec3 R) (travelled : R) : Vec3 R :=
  start + ((target - start).divBy (target - start).norm).scale travelled

/-- The radius of an arc that starts at a place. -/
def radius (start : Vec3 R) (center : Vec2 R) : R :=
  Analytic.hypot (start.x - center.x) (start.y - center.y)

/-- The polar angle of a place on an arc. -/
def bearing (place : Vec3 R) (center : Vec2 R) : R :=
  Analytic.atan2 (place.y - center.y) (place.x - center.x)

/-- The angle that an arc sweeps. -/
def sweep (clockwise : Bool) (start target : Vec3 R) (center : Vec2 R) : R :=
  Scalar.abs (endAngle clockwise (bearing start center) (bearing target center) -
    bearing start center)

/-- The place on an arc after some of the angle that it sweeps. -/
def onArc (clockwise : Bool) (start target : Vec3 R) (center : Vec2 R) (travelled : R) : Vec3 R :=
  let angle := bearing start center + turning clockwise * travelled
  ⟨center.x + radius start center * Analytic.cos angle,
    center.y + radius start center * Analytic.sin angle,
    start.z + (target.z - start.z) * travelled / sweep clockwise start target center⟩

theorem straight_of_short (step : R) {start target : Vec3 R}
    (h : (target - start).norm < Scalar.precision) : straight step start target = [] :=
  if_pos h

theorem straight_of_not_short (step : R) {start target : Vec3 R}
    (h : ¬ (target - start).norm < Scalar.precision) :
    straight step start target =
      (Scalar.marks step (target - start).norm).map (onLine start target) ++ [target] :=
  if_neg h

theorem arc_of_small (step : R) (clockwise : Bool) {start : Vec3 R} (target : Vec3 R)
    {center : Vec2 R} (h : radius start center < Scalar.precision) :
    arc step clockwise start target center = straight step start target :=
  if_pos h

theorem arc_of_not_small (step : R) (clockwise : Bool) {start : Vec3 R} (target : Vec3 R)
    {center : Vec2 R} (h : ¬ radius start center < Scalar.precision) :
    arc step clockwise start target center =
      (Scalar.marks (step / radius start center) (sweep clockwise start target center)).map
        (onArc clockwise start target center) ++ [target] :=
  if_neg h

end Path

/-! ### Legs -/

/-- A move of the tool, from where it is. -/
inductive Leg (R : Type) where
  /-- A straight move. -/
  | straight (target : Vec3 R)
  /-- A move along an arc. -/
  | arc (clockwise : Bool) (center : Vec2 R) (target : Vec3 R)
  /-- A move without a cut. -/
  | jump (target : Vec3 R)

namespace Leg

variable [Analytic R]

/-- The stations of a leg. -/
def stations (step : R) (start : Vec3 R) : Leg R → List (Vec3 R)
  | straight target => Path.straight step start target
  | arc clockwise center target => Path.arc step clockwise start target center
  | jump _ => []

/-- Where a leg ends. -/
def finish (step : R) (start : Vec3 R) : Leg R → Vec3 R
  | jump target => target
  | leg => Path.finish start (leg.stations step start)

/-- The length of a straight move, if it is not too short to be made. -/
def lineLengths (start target : Vec3 R) : List R :=
  if (target - start).norm < Scalar.precision then [] else [(target - start).norm]

/-- The length of a leg, if it is made with the tool on the way. -/
def lengths (start : Vec3 R) : Leg R → List R
  | straight target => lineLengths start target
  | arc clockwise center target =>
    if Path.radius start center < Scalar.precision then lineLengths start target
    else [Path.radius start center * Path.sweep clockwise start target center]
  | jump _ => []

end Leg

namespace Head

variable [Analytic R]

/-- The leg that leads to a target in the motion in effect. -/
def leg (h : Head R) (l : ProgramLine R) (target : Vec3 R) : Leg R :=
  match h.mode with
  | .rapid | .straight => .straight target
  | .arc clockwise =>
    match l.value? 'I', l.value? 'J' with
    | none, none => .jump target
    | i, j => .arc clockwise ⟨h.position.x + i.getD 0, h.position.y + j.getD 0⟩ target

/-- The legs of a line, for a head that is prepared for it. -/
def legs (h : Head R) (l : ProgramLine R) : List (Leg R) :=
  match h.drilling? l with
  | some cycle =>
    if l.hasPlane then
      (Hole.targets ⟨⟨(h.target l).x, (h.target l).y⟩, cycle⟩).map .straight
    else []
  | none => if l.hasAxis then [h.leg l (h.target l)] else []

/-- A head at another place. -/
def placed (h : Head R) (place : Vec3 R) : Head R := { h with position := place }

/-- The lengths of the legs that a head makes. -/
def legLengths (step : R) : Head R → List (Leg R) → List R
  | _, [] => []
  | h, leg :: rest =>
    leg.lengths h.position ++ legLengths step (h.placed (leg.finish step h.position)) rest

/-- The lengths of the moves that lines make. -/
def travelled (step : R) : Head R → List (ProgramLine R) → List R
  | _, [] => []
  | h, l :: rest =>
    (h.prepare l).legLengths step ((h.prepare l).legs l) ++ travelled step (h.obey step l).1 rest

variable {h : Head R} {l : ProgramLine R}

/-- The legs of a line that drills lead to the targets of its hole. -/
theorem legs_of_hole? {k : Hole R} (hk : h.hole? l = some k) :
    (h.prepare l).legs l = k.targets.map .straight := by
  rw [hole?] at hk
  split at hk
  · rename_i hplane
    obtain ⟨c, hc, rfl⟩ := Option.map_eq_some_iff.mp hk
    rw [legs, hc]
    exact if_pos hplane
  · cases hk

/-- A line that drills no hole has one leg at most, in the motion in effect. -/
theorem legs_of_hole?_eq_none (hk : h.hole? l = none) : (h.prepare l).legs l = [] ∨
    (h.prepare l).legs l = [(h.prepare l).leg l ((h.prepare l).target l)] := by
  rw [legs]
  cases hd : (h.prepare l).drilling? l with
  | none => cases l.hasAxis <;> simp
  | some c =>
    refine .inl (if_neg fun hplane => ?_)
    rw [hole?, if_pos hplane, hd] at hk
    cases hk

end Head

/-! ### Simulators that make moves -/

namespace Simulator

variable [Analytic R]

/-- A simulator with its tool at another place. -/
def placed (s : Simulator R) (place : Vec3 R) : Simulator R :=
  { s with head := s.head.placed place }

/-- A simulator that makes a move: it cuts at its stations, and stops where it ends. -/
def follow (s : Simulator R) (leg : Leg R) : Simulator R :=
  ((leg.stations s.step s.head.position).foldl cut s).placed (leg.finish s.step s.head.position)

theorem head_follow (s : Simulator R) (leg : Leg R) :
    (s.follow leg).head = s.head.placed (leg.finish s.step s.head.position) :=
  congrArg (Head.placed · _) (head_foldl_cut s _)

/-- What was cut does not depend on where the tool stopped. -/
theorem Cuts.placed {s s' : Simulator R} {bites : List (Bite R)} (h : s.Cuts bites s')
    (place : Vec3 R) : s.Cuts bites (s'.placed place) :=
  ⟨h.step, h.cut, h.counted, h.steps, h.distance⟩

theorem cuts_follow (s : Simulator R) (leg : Leg R) :
    s.Cuts (s.head.bites (leg.stations s.step s.head.position)) (s.follow leg) :=
  (s.cuts_foldl_cut _).placed _

/-- What is cut at a station does not depend on where the tool was. -/
theorem foldl_cut_placed (s : Simulator R) (place : Vec3 R) (stations : List (Vec3 R)) :
    stations.foldl cut (s.placed place) = (stations.foldl cut s).placed place := by
  induction stations generalizing s with
  | nil => rfl
  | cons station stations ih => exact ih (s.cut station)

theorem step_foldl_cut (s : Simulator R) (stations : List (Vec3 R)) :
    (stations.foldl cut s).step = s.step := (s.cuts_foldl_cut stations).step

/-- A straight move that is too short does nothing. -/
theorem follow_of_short {s : Simulator R} {target : Vec3 R}
    (h : (target - s.head.position).norm < Scalar.precision) : s.follow (.straight target) = s := by
  show ((Path.straight s.step s.head.position target).foldl cut s).placed
    (Path.finish s.head.position (Path.straight s.step s.head.position target)) = s
  rw [Path.straight_of_short s.step h]
  rfl

/-- A straight move after cuts, from where the tool was placed. -/
theorem follow_placed (s : Simulator R) (stations : List (Vec3 R)) (here target : Vec3 R) :
    ((stations.foldl cut s).placed here).follow (.straight target) =
      ((stations ++ Path.straight s.step here target).foldl cut s).placed
        (Path.finish here (Path.straight s.step here target)) := by
  rw [List.foldl_append, follow]
  show ((Path.straight (stations.foldl cut s).step here target).foldl cut
    ((stations.foldl cut s).placed here)).placed
      (Path.finish here (Path.straight (stations.foldl cut s).step here target)) = _
  rw [step_foldl_cut, foldl_cut_placed]
  rfl

/-- A move in the motion in effect is one leg. -/
theorem follow_leg (s : Simulator R) (l : ProgramLine R) (target : Vec3 R) :
    ((s.head.move s.step l target).2.foldl cut s).placed (s.head.move s.step l target).1 =
      s.follow (s.head.leg l target) := by
  unfold Head.move Head.leg
  cases s.head.mode with
  | rapid => rfl
  | straight => rfl
  | arc clockwise =>
    cases l.value? 'I' with
    | none => cases l.value? 'J' <;> rfl
    | some i => rfl

/-- A motion is made leg by leg. -/
theorem foldl_motion (s : Simulator R) (l : ProgramLine R) :
    ((s.head.motion s.step l).2.foldl cut s).placed (s.head.motion s.step l).1 =
      (s.head.legs l).foldl follow s := by
  rw [Head.motion, Head.legs, Head.drilling?]
  cases s.head.cycle.filter fun _ => (l.values 'G').any Head.definesCycle || !l.hasG with
  | some cycle =>
    cases l.hasPlane with
    | false => rfl
    | true =>
      dsimp only [if_true, Head.Hole.targets, List.map_cons, List.map_nil, List.foldl_cons,
        List.foldl_nil]
      rw [Head.drill, Path.finish_append, Path.finish_append]
      exact ((congrArg (follow · _) (follow_placed s _ _ _)).trans (follow_placed s _ _ _)).symm
  | none =>
    cases l.hasAxis with
    | false => rfl
    | true => exact s.follow_leg l (s.head.target l)

/-- **A line is executed leg by leg**, once the head is prepared for it. -/
theorem execute_eq_follow (s : Simulator R) (l : ProgramLine R) :
    s.execute l = ((s.head.prepare l).legs l).foldl follow { s with head := s.head.prepare l } := by
  rw [← foldl_motion]
  exact foldl_cut_placed { s with head := s.head.prepare l } _ _

end Simulator

end Toolpath
