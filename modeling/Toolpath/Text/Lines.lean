/-!
# Lines of a text

A text is read line by line. A line ends at a line feed, and a carriage return directly before the
line feed belongs to the ending. What follows the last line feed is a line only if there is
anything, and there a carriage return stays: nothing ends that line.

`LineEnding.apply` goes the other way. It never doubles a carriage return that is already there, so
applying it twice is applying it once.
-/

namespace Toolpath

namespace Text

/-- A line without the carriage return that ends it, given backwards. -/
def closeLine : List Char → List Char
  | '\r' :: rest => rest.reverse
  | line => line.reverse

/-- The lines of a text that follows a part of a line, which is given backwards. -/
def linesFrom : List Char → List Char → List (List Char)
  | [], [] => []
  | line, [] => [line.reverse]
  | line, c :: rest =>
    if c = '\n' then closeLine line :: linesFrom [] rest else linesFrom (c :: line) rest

/-- The lines of a text. -/
def lines (text : List Char) : List (List Char) := linesFrom [] text

end Text

/-- How the lines of a program end. -/
inductive LineEnding where
  /-- A line feed. -/
  | lf
  /-- A carriage return and a line feed. -/
  | crlf
deriving DecidableEq, Repr, Inhabited

namespace LineEnding

/-- A character that follows `before`, a line feed getting its carriage return. -/
def expand (before c : Char) : List Char :=
  if c = '\n' ∧ before ≠ '\r' then ['\r', '\n'] else [c]

/-- A text with a carriage return before every line feed. -/
def withReturns (text : List Char) : List Char :=
  (List.zipWith expand ('\x00' :: text) text).flatten

/-- A text with every line ended in this way. Line feeds alone are left as they are found. -/
def apply : LineEnding → String → String
  | lf, text => text
  | crlf, text => String.ofList (withReturns text.toList)

end LineEnding

end Toolpath
