import Toolpath.Decimal.Read
import Toolpath.Document.Machine
import Toolpath.Text.Blank
import Toolpath.Text.Lines

/-!
# Statements

A program is a run of statements: lines of words, remarks, and text taken over as it stands. The
numbers in words are already printed here, so a statement determines its text completely once the
dialect of the controller is known. The dialect says how remarks look, what opens and closes a
program and how a tool is changed.

Every statement is written as nothing or as whole lines, so programs can be put one behind the
other.
-/

namespace Toolpath

/-- An address letter with the text of a number, such as `X1.5` or `G00`. -/
structure Word where
  /-- The address letter. -/
  letter : Char
  /-- The text of the number. -/
  number : String
deriving DecidableEq, Repr, Inhabited

namespace Word

/-- The characters of a word. -/
def chars (w : Word) : List Char := w.letter :: w.number.toList

/-- A word with a natural number of at least `width` digits. -/
def ofNat (letter : Char) (width n : Nat) : Word :=
  ⟨letter, String.ofList (Decimal.padZeros width (Decimal.digits n))⟩

/-- A word of two digits that selects a preparatory function. -/
def g (n : Nat) : Word := ofNat 'G' 2 n

/-- A word of two digits that selects an auxiliary function. -/
def m (n : Nat) : Word := ofNat 'M' 2 n

/-- A word with a number of fixed decimal places. -/
def ofScalar {R : Type} [Numeral R] (decimals : Nat) (letter : Char) (x : R) : Word :=
  ⟨letter, Numeral.coordinate decimals x⟩

end Word

/-- A piece of a program that is written as whole lines. -/
inductive Statement where
  /-- One line of words. -/
  | words (ws : List Word)
  /-- The line that frames a program. -/
  | frame
  /-- A remark, a line for each line of its text. A blank one is left out. -/
  | remark (text : String)
  /-- A remark that carries numbers under a name. -/
  | marker (name : String) (values : List String)
  /-- Lines taken over as they stand. -/
  | verbatim (text : String)
deriving DecidableEq, Repr, Inhabited

/-- How a controller writes remarks. -/
inductive RemarkStyle where
  /-- Between parentheses. -/
  | parentheses
  /-- Behind a semicolon. -/
  | semicolon
deriving DecidableEq, Repr, Inhabited

/-- What controllers differ in. -/
structure Dialect where
  /-- How remarks are written. -/
  remarks : RemarkStyle
  /-- Whether a program stands between two frames and carries its number. -/
  framed : Bool
  /-- Whether a tool change is followed by the length offset of the tool. -/
  lengthOffset : Bool
deriving DecidableEq, Repr, Inhabited

namespace RemarkStyle

/-- A character of a remark between parentheses, which cannot hold parentheses itself. -/
def unparenthesized (c : Char) : Char := if c = '(' then '[' else if c = ')' then ']' else c

/-- One line of a remark. -/
def line : RemarkStyle → List Char → List Char
  | parentheses, text => '(' :: (text.map unparenthesized ++ [')'])
  | semicolon, text => ';' :: ' ' :: text

end RemarkStyle

namespace Dialect

/-- The dialect of a controller. -/
def ofController : Controller → Dialect
  | .linuxCnc => ⟨.parentheses, false, false⟩
  | .turboCnc => ⟨.semicolon, false, false⟩
  | .haas => ⟨.parentheses, true, true⟩

/-- A remark, a line for each line of the text. -/
def remark (d : Dialect) (text : String) : String :=
  String.ofList ((Text.lines text.toList).flatMap fun l => d.remarks.line l ++ ['\n'])

/-- What opens a program with a number. A framed program carries the last five digits. -/
def opening (d : Dialect) (number : Nat) : List Statement :=
  if d.framed then [.frame, .words [Word.ofNat 'O' 5 (number % 100000)]] else []

/-- What closes a program. -/
def closing (d : Dialect) : List Statement :=
  .words [Word.m 30] :: if d.framed then [.frame] else []

/-- A change to the tool in a slot of the tool table. -/
def toolChange (d : Dialect) (slot : Nat) : List Statement :=
  .words [Word.ofNat 'T' 1 slot, Word.m 6] ::
    if d.lengthOffset then [.words [Word.g 43, Word.ofNat 'H' 2 slot]] else []

end Dialect

namespace Statement

/-- The text of a marker. -/
def markerText (name : String) (values : List String) : String :=
  String.intercalate ":" ("GCAM" :: name :: values)

/-- A line of words. -/
def wordsLine (ws : List Word) : List Char := [' '].intercalate (ws.map Word.chars) ++ ['\n']

/-- A text with the line feed that ends its last line. -/
def closed (text : String) : String :=
  if text.isEmpty || text.toList.getLast? == some '\n' then text else text ++ "\n"

/-- A statement in a dialect. -/
def text (d : Dialect) : Statement → String
  | words ws => String.ofList (wordsLine ws)
  | frame => "%\n"
  | remark t => if Text.isBlank t then "" else d.remark t
  | marker name values => d.remark (markerText name values)
  | verbatim t => closed t

/-- Statements one after the other. -/
def program (d : Dialect) (statements : List Statement) : String :=
  String.join (statements.map (text d))

end Statement

end Toolpath
