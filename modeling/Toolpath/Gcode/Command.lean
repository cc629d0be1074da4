import Toolpath.Gcode.Statement
import Toolpath.Geometry.Vector

/-!
# Commands

A command is a statement whose numbers are not printed yet. Writing a run of commands prints the
numbers with a count of decimal places and leaves out a feed that is already in effect: `Modal` is
the feed stated last, and a run starts without one, so that it can stand behind anything.

The feed of a drilling cycle is always stated, and neither it nor the bare feed of a tool change
counts as the feed in effect.
-/

namespace Toolpath

/-- A piece of a program with numbers of type `R`. -/
inductive Command (R : Type) where
  /-- Lines taken over as they stand. -/
  | verbatim (text : String)
  /-- A remark. -/
  | remark (text : String)
  /-- A remark that carries numbers under a name. -/
  | marker (name : String) (values : List R)
  /-- A line of codes. -/
  | codes (words : List Word)
  /-- What opens the program with a number. -/
  | programStart (number : Nat)
  /-- What closes the program. -/
  | programEnd
  /-- A change to the tool in a slot. -/
  | toolChange (slot : Nat)
  /-- The feed stated on a line of its own. -/
  | feedRate (feed : R)
  /-- A rapid move in Z. -/
  | rapidZ (z : R)
  /-- A rapid move in the plane. -/
  | rapid (p : Vec2 R)
  /-- A cutting move in Z. -/
  | feedZ (z feed : R)
  /-- A cutting move in the plane. -/
  | feed (p : Vec2 R) (feed : Option R)
  /-- A cutting move in space. -/
  | feedTo (p : Vec2 R) (z feed : R)
  /-- A cutting move along an arc; the center is given relative to the start. -/
  | arc (clockwise : Bool) (finish center : Vec2 R) (feed : Option R)
  /-- A drilling cycle with its first hole. -/
  | peck (p : Vec2 R) (bottom retract increment feed : R)
  /-- A further hole of the drilling cycle. -/
  | hole (p : Vec2 R)
deriving DecidableEq, Repr

namespace Command

variable {R : Type}

/-- The feed that a command asks for, where it is left out if already in effect. -/
def feed? : Command R → Option R
  | feedZ _ f => some f
  | feed _ f => f
  | feedTo _ _ f => some f
  | arc _ _ _ f => f
  | _ => none

/-- The codes that a motion starts with. -/
def motionCodes : Command R → List Word
  | rapidZ _ | rapid _ => [Word.g 0]
  | feedZ _ _ | feed _ _ | feedTo _ _ _ => [Word.g 1]
  | arc clockwise _ _ _ => [Word.g (if clockwise then 2 else 3)]
  | peck _ _ _ _ _ => [Word.g 83]
  | _ => []

/-- The numbers of a motion under their letters, the feed in effect excepted. -/
def numbers : Command R → List (Char × R)
  | feedRate f => [('F', f)]
  | rapidZ z => [('Z', z)]
  | rapid p => [('X', p.x), ('Y', p.y)]
  | feedZ z _ => [('Z', z)]
  | feed p _ => [('X', p.x), ('Y', p.y)]
  | feedTo p z _ => [('X', p.x), ('Y', p.y), ('Z', z)]
  | arc _ e c _ => [('X', e.x), ('Y', e.y), ('I', c.x), ('J', c.y)]
  | peck p z r q f => [('X', p.x), ('Y', p.y), ('Z', z), ('R', r), ('Q', q), ('F', f)]
  | hole p => [('X', p.x), ('Y', p.y)]
  | _ => []

/-- The feed in effect after a command, if it was `modal` before. -/
def feedAfter [Scalar R] (modal : Option R) (c : Command R) : Option R :=
  match c.feed?, modal with
  | none, m => m
  | some f, none => some f
  | some f, some m => if Scalar.abs (m - f) < Scalar.precision then some m else some f

/-- The feed that a command has to state, if `modal` is in effect. -/
def statedFeed? [Scalar R] (modal : Option R) (c : Command R) : Option R :=
  match modal with
  | none => c.feed?
  | some m => c.feed?.filter fun f => !decide (Scalar.abs (m - f) < Scalar.precision)

variable [Scalar R] [Numeral R]

/-- The statements of a command, if `modal` is the feed in effect. -/
def statements (d : Dialect) (decimals : Nat) (modal : Option R) (c : Command R) :
    List Statement :=
  match c with
  | verbatim t => [.verbatim t]
  | remark t => [.remark t]
  | marker name values => [.marker name (values.map (Numeral.coordinate decimals))]
  | codes ws => [.words ws]
  | programStart n => d.opening n
  | programEnd => d.closing
  | toolChange slot => d.toolChange slot
  | c =>
    [.words (c.motionCodes ++ c.numbers.map (fun n => Word.ofScalar decimals n.1 n.2)
      ++ ((c.statedFeed? modal).map (Word.ofScalar decimals 'F')).toList)]

/-- The statements of a run of commands that starts with the feed `modal` in effect. -/
def writeFrom (d : Dialect) (decimals : Nat) (modal : Option R) : List (Command R) → List Statement
  | [] => []
  | c :: cs => c.statements d decimals modal ++ writeFrom d decimals (c.feedAfter modal) cs

/-- The statements of a run of commands. -/
def write (d : Dialect) (decimals : Nat) (cs : List (Command R)) : List Statement :=
  writeFrom d decimals none cs

end Command

end Toolpath
