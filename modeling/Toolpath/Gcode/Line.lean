import Toolpath.Gcode.Statement
import Toolpath.Geometry.Vector

/-!
# Reading program lines

A line is read for its words and its markers. Words stand outside of remarks; blanks between a
letter and its number, and whatever else stands between words, are passed over. A letter without a
readable number is no word. Markers are looked for everywhere on the line, remarks included.
-/

namespace Toolpath

/-- A word as read. -/
structure Address (R : Type) where
  /-- The letter, in upper case. -/
  letter : Char
  /-- The number. -/
  value : R
deriving DecidableEq, Repr

/-- What a program tells a simulation in its remarks. -/
inductive Marker (R : Type) where
  /-- The diameter of the tool that cuts from here on. -/
  | toolDiameter (diameter : R)
  /-- The place of program zero in the stock. -/
  | origin (place : Vec3 R)
deriving DecidableEq, Repr

namespace Marker

/-- The name under which the diameter of a tool is given. -/
def toolDiameterName : String := "TOOL_DIAMETER"

/-- The name under which the place of program zero is given. -/
def originName : String := "ORIGIN"

/-- The marker with a name and numbers; numbers beyond those it needs are ignored. -/
def ofNumbers? {R : Type} (name : String) (numbers : List R) : Option (Marker R) :=
  if name = toolDiameterName then
    match numbers with
    | d :: _ => some (toolDiameter d)
    | _ => none
  else if name = originName then
    match numbers with
    | x :: y :: z :: _ => some (origin ⟨x, y, z⟩)
    | _ => none
  else none

end Marker

/-- A line of a program as read. -/
structure ProgramLine (R : Type) where
  /-- The words in order. -/
  words : List (Address R)
  /-- The markers in order. -/
  markers : List (Marker R)
deriving DecidableEq, Repr

namespace ProgramLine

variable {R : Type}

/-! ### What a line says -/

/-- The value of the last word with a letter. -/
def value? (l : ProgramLine R) (letter : Char) : Option R :=
  (l.words.reverse.find? fun w => w.letter == letter).map (·.value)

/-- The values of all words with a letter. -/
def values (l : ProgramLine R) (letter : Char) : List R :=
  (l.words.filter fun w => w.letter == letter).map (·.value)

/-- Whether there is a word with one of some letters. -/
def hasAny (l : ProgramLine R) (letters : List Char) : Bool :=
  l.words.any fun w => letters.contains w.letter

/-- Whether the line names a preparatory function. -/
def hasG (l : ProgramLine R) : Bool := l.hasAny ['G']

/-- Whether the line has a coordinate of the plane. -/
def hasPlane (l : ProgramLine R) : Bool := l.hasAny ['X', 'Y']

/-- Whether the line has a coordinate. -/
def hasAxis (l : ProgramLine R) : Bool := l.hasAny ['X', 'Y', 'Z']

/-- Whether the line has neither words nor markers. -/
def isEmpty (l : ProgramLine R) : Bool := l.words.isEmpty && l.markers.isEmpty

/-! ### Words -/

/-- The part of a line outside of remarks. The first argument says whether the line starts inside
one. -/
def outside : Bool → List Char → List Char
  | _, [] => []
  | true, c :: rest => outside (c != ')') rest
  | false, c :: rest =>
    if c = ';' then []
    else if c = '(' then outside true rest
    else c :: outside false rest

/-- Whether a character can stand in the number of a word. -/
def isNumberChar (c : Char) : Bool := c.isDigit || c == '.' || c == '-' || c == '+'

/-- The words of a text without remarks, of which at most `fuel` characters are looked at. -/
def wordsWithin [Numeral R] : Nat → List Char → List (Address R)
  | 0, _ => []
  | _, [] => []
  | fuel + 1, c :: rest =>
    if c.isAlpha then
      let body := rest.dropWhile (· == ' ')
      let more := wordsWithin fuel (body.dropWhile isNumberChar)
      match Numeral.read? (body.takeWhile isNumberChar) with
      | some x => ⟨c.toUpper, x⟩ :: more
      | none => more
    else wordsWithin fuel rest

/-- The words of a text without remarks. -/
def wordsOf [Numeral R] (text : List Char) : List (Address R) := wordsWithin text.length text

/-! ### Markers -/

/-- What follows a text at the start of another one. -/
def after? : List Char → List Char → Option (List Char)
  | [], rest => some rest
  | c :: cs, d :: ds => if c = d then after? cs ds else none
  | _ :: _, [] => none

/-- Whether a character can stand in the number of a marker. -/
def isMarkerChar (c : Char) : Bool := isNumberChar c || c == 'e' || c == 'E'

/-- The numbers between colons at the start of a text, up to the first that cannot be read. At most
`fuel` of them are looked for. -/
def numbersWithin [Numeral R] : Nat → List Char → List R
  | 0, _ => []
  | fuel + 1, text =>
    match Numeral.read? (text.takeWhile isMarkerChar) with
    | none => []
    | some x =>
      x :: match text.dropWhile isMarkerChar with
        | ':' :: rest => numbersWithin fuel rest
        | _ => []

/-- The marker whose name and numbers stand at the start of a text. -/
def markerAt? [Numeral R] (text : List Char) : Option (Marker R) :=
  match text.dropWhile (· != ':') with
  | ':' :: rest =>
    Marker.ofNumbers? (String.ofList (text.takeWhile (· != ':'))) (numbersWithin text.length rest)
  | _ => none

/-- The markers on a line. -/
def markersOf [Numeral R] : List Char → List (Marker R)
  | [] => []
  | c :: rest =>
    match (after? "GCAM:".toList (c :: rest)).bind markerAt? with
    | some m => m :: markersOf rest
    | none => markersOf rest

/-- A line of a program. -/
def read [Numeral R] (line : List Char) : ProgramLine R :=
  ⟨wordsOf (outside false line), markersOf line⟩

end ProgramLine

end Toolpath
