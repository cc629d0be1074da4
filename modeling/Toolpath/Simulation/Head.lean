import Toolpath.Gcode.Line
import Toolpath.Simulation.Path

/-!
# The head of a machine

The head is everything about a machine that a program changes, except for the stock: where the tool
is, how wide it is, and the modes in effect. `Head.obey` executes a line: it gives the head
afterwards and the stations at which the tool cuts on its way. What has been cut already plays no
part here.

The order on a line is: markers, feed, preparatory functions, motion. While a drilling cycle is
active a line without preparatory functions, or the one that defines the cycle, drills at its
coordinates and does nothing else.
-/

namespace Toolpath

/-- How the tool moves between coordinates. -/
inductive MotionMode where
  /-- A rapid move. -/
  | rapid
  /-- A straight cutting move. -/
  | straight
  /-- An arc. -/
  | arc (clockwise : Bool)
deriving DecidableEq, Repr, Inhabited

/-- An active drilling cycle. -/
structure DrillCycle (R : Type) where
  /-- The height between holes. -/
  retract : R
  /-- The bottom of the holes. -/
  bottom : R
deriving DecidableEq, Repr

/-- The state of a machine apart from the stock. -/
structure Head (R : Type) where
  /-- The place of the tip in the coordinates of the program. -/
  position : Vec3 R
  /-- The place of program zero in the stock. -/
  origin : Vec3 R
  /-- The diameter of the tool. -/
  diameter : R
  /-- The feed stated last. -/
  feed : R
  /-- Whether coordinates are relative to the position. -/
  incremental : Bool
  /-- The motion in effect. -/
  mode : MotionMode
  /-- The drilling cycle, if one is active. -/
  cycle : Option (DrillCycle R)
deriving DecidableEq, Repr

namespace Head

variable {R : Type}

/-- A head at a position, with no feed stated and rapid motion in effect. -/
def start [Scalar R] (origin position : Vec3 R) (diameter : R) : Head R :=
  ⟨position, origin, diameter, 0, false, .rapid, none⟩

/-- A head told something in a remark. -/
def told (h : Head R) : Marker R → Head R
  | .toolDiameter d => { h with diameter := d }
  | .origin o => { h with origin := o }

/-- The head with the feed of a line. -/
def withFeed (h : Head R) (l : ProgramLine R) : Head R :=
  match l.value? 'F' with
  | some f => { h with feed := f }
  | none => h

/-- The head with a motion selected, which ends a drilling cycle. -/
def select (h : Head R) (mode : MotionMode) : Head R := { h with mode, cycle := none }

/-- The head with a drilling cycle defined by a line. What the line leaves open stays as in the
cycle before, or is the height of the tool. -/
def define (h : Head R) (l : ProgramLine R) : Head R :=
  let retract := ((l.value? 'R').or (h.cycle.map (·.retract))).getD h.position.z
  let bottom := ((l.value? 'Z').or (h.cycle.map (·.bottom))).getD h.position.z
  { h with cycle := some ⟨retract, bottom⟩ }

section

variable [Scalar R]

/-- Whether a code is one of some numbers. -/
def isOneOf (code : R) (ns : List Nat) : Bool := ns.any fun n => code == Scalar.ofNat n

/-- Whether a code defines a drilling cycle. -/
def definesCycle (code : R) : Bool := isOneOf code [81, 82, 83]

/-- The head after a preparatory function on a line. Functions that change neither the motion nor
the meaning of coordinates have no effect. -/
def prepared (l : ProgramLine R) (h : Head R) (code : R) : Head R :=
  if isOneOf code [0] then h.select .rapid
  else if isOneOf code [1] then h.select .straight
  else if isOneOf code [2] then h.select (.arc true)
  else if isOneOf code [3] then h.select (.arc false)
  else if isOneOf code [80] then { h with cycle := none }
  else if definesCycle code then h.define l
  else if isOneOf code [90] then { h with incremental := false }
  else if isOneOf code [91] then { h with incremental := true }
  else h

/-- The head after everything on a line but its motion. -/
def prepare (h : Head R) (l : ProgramLine R) : Head R :=
  (l.values 'G').foldl (prepared l) ((l.markers.foldl told h).withFeed l)

/-- A coordinate of the target of a line. -/
def targetAlong (h : Head R) (l : ProgramLine R) (letter : Char) (here : R) : R :=
  match l.value? letter with
  | some v => if h.incremental then here + v else v
  | none => here

/-- The target of a line. Coordinates that it does not have stay. -/
def target (h : Head R) (l : ProgramLine R) : Vec3 R :=
  ⟨h.targetAlong l 'X' h.position.x, h.targetAlong l 'Y' h.position.y,
    h.targetAlong l 'Z' h.position.z⟩

end

variable [Analytic R]

/-- The stations of a drilled hole: to the retraction height above it, to its bottom and back. -/
def drill (step : R) (start : Vec3 R) (cycle : DrillCycle R) (x y : R) : List (Vec3 R) :=
  let top : Vec3 R := ⟨x, y, cycle.retract⟩
  let bottom : Vec3 R := ⟨x, y, cycle.bottom⟩
  let down := Path.straight step start top
  let cut := Path.straight step (Path.finish start down) bottom
  down ++ cut ++ Path.straight step (Path.finish (Path.finish start down) cut) top

/-- The move to a target in the motion in effect: where it ends, and its stations. An arc without a
center moves the tool without cutting. -/
def move (step : R) (h : Head R) (l : ProgramLine R) (target : Vec3 R) : Vec3 R × List (Vec3 R) :=
  let here := h.position
  match h.mode with
  | .rapid | .straight =>
    let stations := Path.straight step here target
    (Path.finish here stations, stations)
  | .arc clockwise =>
    match l.value? 'I', l.value? 'J' with
    | none, none => (target, [])
    | i, j =>
      let center : Vec2 R := ⟨here.x + i.getD 0, here.y + j.getD 0⟩
      let stations := Path.arc step clockwise here target center
      (Path.finish here stations, stations)

/-- The motion of a line for a head that is prepared for it: where it ends, and its stations. -/
def motion (step : R) (h : Head R) (l : ProgramLine R) : Vec3 R × List (Vec3 R) :=
  let target := h.target l
  let drilling := h.cycle.filter fun _ => (l.values 'G').any definesCycle || !l.hasG
  match drilling with
  | some cycle =>
    if l.hasPlane then
      let stations := drill step h.position cycle target.x target.y
      (Path.finish h.position stations, stations)
    else (h.position, [])
  | none => if l.hasAxis then move step h l target else (h.position, [])

/-- A line executed: the head afterwards, and the stations at which the tool cuts. -/
def obey (step : R) (h : Head R) (l : ProgramLine R) : Head R × List (Vec3 R) :=
  let h := h.prepare l
  let (position, stations) := h.motion step l
  ({ h with position }, stations)

end Head

end Toolpath
