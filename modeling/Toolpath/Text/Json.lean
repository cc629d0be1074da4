import Toolpath.Decimal.Shortest

/-!
# JSON

Values and their layout over several lines, two blanks for each level. The members of an object
stand in the order of their names. A number that is not finite has no form of its own and is
written as null.
-/

namespace Toolpath

/-- A JSON value. -/
inductive Json where
  /-- No value. -/
  | null
  /-- A truth value. -/
  | bool (b : Bool)
  /-- A natural number. -/
  | nat (n : Nat)
  /-- A double. -/
  | float (x : Double)
  /-- A text. -/
  | string (s : String)
  /-- A list. -/
  | array (items : List Json)
  /-- Members with names. -/
  | object (members : List (String × Json))
deriving Inhabited

namespace Json

/-- Whether a list is in the order of the names. -/
def precedes (a b : String × Json) : Bool := decide (a.1 ≤ b.1)

/-- An object with its members in the order of their names. -/
def ofMembers (members : List (String × Json)) : Json := object (members.mergeSort precedes)

/-- The escape of a control character. -/
def controlEscape (c : Char) : List Char :=
  if c = '\x08' then ['\\', 'b']
  else if c = '\x0C' then ['\\', 'f']
  else if c = '\n' then ['\\', 'n']
  else if c = '\r' then ['\\', 'r']
  else if c = '\t' then ['\\', 't']
  else ['\\', 'u', '0', '0', Nat.digitChar (c.toNat / 16), Nat.digitChar (c.toNat % 16)]

/-- A character of a text. -/
def escape (c : Char) : List Char :=
  if c = '"' ∨ c = '\\' then ['\\', c]
  else if c < ' ' then controlEscape c
  else [c]

/-- A text between quotation marks. -/
def quote (s : String) : String := String.ofList ('"' :: (s.toList.flatMap escape ++ ['"']))

/-- A line end and the blanks of a level. -/
def newLine (level : Nat) : String := "\n" ++ String.ofList (List.replicate (2 * level) ' ')

/-- Entries between brackets, each on a line of its own. -/
def block (opening closing : String) (level : Nat) (entries : List String) : String :=
  if entries.isEmpty then opening ++ closing
  else
    opening ++ newLine (level + 1) ++ String.intercalate ("," ++ newLine (level + 1)) entries
      ++ newLine level ++ closing

mutual

/-- A value laid out at a level. -/
def pretty (level : Nat) : Json → String
  | null => "null"
  | bool b => if b then "true" else "false"
  | nat n => toString n
  | float x => if x.isFinite then Decimal.json.text x else "null"
  | string s => quote s
  | array items => block "[" "]" level (prettyItems (level + 1) items)
  | object members => block "\x7b" "\x7d" level (prettyMembers (level + 1) members)

/-- Items laid out at a level. -/
def prettyItems (level : Nat) : List Json → List String
  | [] => []
  | v :: vs => pretty level v :: prettyItems level vs

/-- Members laid out at a level. -/
def prettyMembers (level : Nat) : List (String × Json) → List String
  | [] => []
  | (name, v) :: rest => (quote name ++ ": " ++ pretty level v) :: prettyMembers level rest

end

end Json

end Toolpath
