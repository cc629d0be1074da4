import Toolpath.Toml.Scalar

/-!
# Settings files

A settings file is read line by line. A line is blank, opens a table by a header, or gives a value
under a key; a value between brackets may run over several lines. `read?` yields the entries of the
whole file, or nothing if it does not follow the format anywhere.

Values are nested to a limited depth, which also bounds the recursion.
-/

namespace Toolpath

namespace Toml

/-- How many brackets and braces stand around a value at most, and how many parts a key has at
most. -/
def depthLimit : Nat := 79

/-! ### Keys -/

/-- One part of a key. -/
def keyPart : Reader String
  | '"' :: rest => basicFrom [] rest
  | '\x27' :: rest => literalFrom [] rest
  | text =>
    let part := text.takeWhile isBareKey
    if part.isEmpty then none else some (String.ofList part, text.dropWhile isBareKey)

/-- A key of at most `fuel` parts with points between them, and the blanks behind it. -/
def keyWithin : Nat → Reader (List String)
  | 0, _ => none
  | fuel + 1, text =>
    match keyPart (text.dropWhile isSpace) with
    | none => none
    | some (part, rest) =>
      match rest.dropWhile isSpace with
      | '.' :: rest => (keyWithin fuel rest).map fun (parts, rest) => (part :: parts, rest)
      | rest => some ([part], rest)

/-- A key and the blanks behind it. -/
def key : Reader (List String) := keyWithin depthLimit

/-- A key with its value. -/
def pair (value : Reader Value) : Reader (List String × Value) := fun text =>
  match key text with
  | some (k, '=' :: rest) => (value (rest.dropWhile isSpace)).map fun (v, rest) => ((k, v), rest)
  | _ => none

/-! ### Values -/

/-- The values up to a closing bracket, behind values given backwards. -/
def items (value : Reader Value) : Nat → List Value → Reader (List Value)
  | 0, _, _ => none
  | fuel + 1, done, text =>
    match skipLines? false text with
    | none => none
    | some (']' :: rest) => some (done.reverse, rest)
    | some text =>
      match value text with
      | none => none
      | some (v, rest) =>
        match skipLines? false rest with
        | some (',' :: rest) => items value fuel (v :: done) rest
        | some (']' :: rest) => some ((v :: done).reverse, rest)
        | _ => none

/-- The entries up to a closing brace, put to those already there. There is at least one. -/
def members (value : Reader Value) : Nat → Entries → Reader Entries
  | 0, _, _ => none
  | fuel + 1, es, text =>
    match pair value text with
    | none => none
    | some ((k, v), rest) =>
      match Entries.insert .inline k v es, rest.dropWhile isSpace with
      | some es, ',' :: rest => members value fuel es rest
      | some es, '\x7D' :: rest => some (es, rest)
      | _, _ => none

/-- A value that holds no other values. -/
def leaf : Reader Value := fun text =>
  match text with
  | '"' :: _ => (string text).map fun (s, rest) => (.string s, rest)
  | '\x27' :: _ => (string text).map fun (s, rest) => (.string s, rest)
  | _ => token text

/-- A value of a depth that is bounded by the first argument. -/
def valueWithin : Nat → Reader Value
  | 0, text => leaf text
  | depth + 1, text =>
    match text with
    | '[' :: rest =>
      (items (valueWithin depth) (rest.length + 1) [] rest).map fun (vs, rest) => (.array vs, rest)
    | '\x7B' :: rest =>
      match rest.dropWhile isSpace with
      | '\x7D' :: rest => some (.table .inline [], rest)
      | rest =>
        (members (valueWithin depth) (rest.length + 1) [] rest).map fun (es, rest) =>
          (.table .inline es, rest)
    | _ => leaf text

/-- A value. -/
def value : Reader Value := valueWithin depthLimit

/-! ### Lines -/

/-- What has been read: all entries, and the table that was opened last. -/
structure Draft where
  /-- The entries. -/
  entries : Entries := []
  /-- The path of the table. -/
  current : List String := []

/-- The path in a header that ends in some characters. -/
def header (closing : List Char) : Reader (List String) := fun text =>
  match key text with
  | none => none
  | some (path, rest) =>
    if rest.take closing.length = closing then some (path, rest.drop closing.length) else none

/-- A line with something on it, up to its end. -/
def line (d : Draft) (text : List Char) : Option (Draft × List Char) :=
  match text with
  | '[' :: '[' :: rest =>
    match header [']', ']'] rest with
    | none => none
    | some (path, rest) =>
      (Entries.openNext path d.entries).map fun es => (⟨es, path⟩, rest)
  | '[' :: rest =>
    match header [']'] rest with
    | none => none
    | some (path, rest) =>
      (Entries.openTable path d.entries).map fun es => (⟨es, path⟩, rest)
  | text =>
    match pair value text with
    | none => none
    | some ((k, v), rest) =>
      (Entries.within false (fun _ es => Entries.insert .header k v es) .header d.current
        d.entries).map fun es => ({ d with entries := es }, rest)

/-- The lines of a text, of which there are at most `fuel`. -/
def linesWithin : Nat → Draft → List Char → Option Entries
  | 0, _, _ => none
  | _, d, [] => some d.entries
  | fuel + 1, d, text =>
    match endOfLine? text with
    | some rest => linesWithin fuel d rest
    | none =>
      match line d (text.dropWhile isSpace) with
      | none => none
      | some (d, rest) =>
        match endOfLine? rest with
        | some rest => linesWithin fuel d rest
        | none => none

/-- The entries of a settings file. A byte order mark at the start is passed over. -/
def read? (text : String) : Option Entries :=
  match text.toList with
  | '\uFEFF' :: rest => linesWithin (rest.length + 1) {} rest
  | rest => linesWithin (rest.length + 1) {} rest

end Toml

end Toolpath
