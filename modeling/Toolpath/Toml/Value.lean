import Toolpath.Number.Double

/-!
# Values of a settings file

A settings file is a tree of tables. What may still be put into a table depends on how it came
about: one that was opened by a header is closed to dotted keys, one that dotted keys made cannot
be opened by a header, and one written between braces is complete. `TableOrigin` records that, and
`Entries.within` enforces it on the way to the place of a new entry.
-/

namespace Toolpath

namespace Toml

/-- How a table came about. -/
inductive TableOrigin where
  /-- By a header of its own. -/
  | header
  /-- On the way to a table below it that has a header. -/
  | implied
  /-- By a dotted key. -/
  | dotted
  /-- Between braces. -/
  | inline
deriving DecidableEq, Repr, Inhabited

/-- A value. -/
inductive Value where
  /-- A text. -/
  | string (text : String)
  /-- A whole number. -/
  | integer (n : Int)
  /-- A number with a fraction or an exponent, or one that is not finite. -/
  | float (x : Double)
  /-- A truth value. -/
  | boolean (b : Bool)
  /-- A date, a time or both. -/
  | moment
  /-- A list of values. -/
  | array (items : List Value)
  /-- A table. -/
  | table (origin : TableOrigin) (entries : List (String × Value))
  /-- Tables that were opened one after the other under one name. -/
  | tables (items : List (List (String × Value)))
deriving Inhabited

/-- The entries of a table. -/
abbrev Entries := List (String × Value)

namespace Entries

/-- The value under a key. -/
def get? (es : Entries) (key : String) : Option Value := (es.find? fun e => e.1 == key).map Prod.snd

/-- The entries with the value under a key changed, or a new one put at the end. -/
def alter (key : String) (f : Option Value → Option Value) : Entries → Option Entries
  | [] => (f none).map fun v => [(key, v)]
  | e :: es =>
    if e.1 = key then (f (some e.2)).map fun v => (key, v) :: es
    else (alter key f es).map (e :: ·)

/-- A change to the table at the end of a path, which starts from a table with an origin. Tables
that are missing on the way are made. -/
def within (byDots : Bool) (change : TableOrigin → Entries → Option Entries) :
    TableOrigin → List String → Entries → Option Entries
  | origin, [], es => change origin es
  | _, key :: path, es =>
    es.alter key fun
      | none =>
        let origin := if byDots then TableOrigin.dotted else .implied
        (within byDots change origin path []).map (.table origin)
      | some (.table origin inner) =>
        if origin = .inline ∨ (byDots ∧ origin = .header) then none
        else (within byDots change origin path inner).map (.table origin)
      | some (.tables items) =>
        match items.reverse with
        | [] => none
        | last :: before =>
          (within byDots change .header path last).map fun es => .tables (before.reverse ++ [es])
      | some _ => none

/-- A value put under a dotted key, seen from a table with an origin. No key is given twice, and
the table that holds the value is made by dots if the key has any. -/
def insert (origin : TableOrigin) (key : List String) (v : Value) (es : Entries) : Option Entries :=
  match key.reverse with
  | [] => none
  | last :: path =>
    within true (fun origin es =>
      if decide (origin = .dotted) == path.isEmpty then none
      else es.alter last fun
        | none => some v
        | some _ => none) origin path.reverse es

/-- A table opened by a header. It may have been implied before, but nothing else. -/
def openTable (path : List String) (es : Entries) : Option Entries :=
  match path.reverse with
  | [] => none
  | last :: parent =>
    within false (fun _ es => es.alter last fun
      | none => some (.table .header [])
      | some (.table .implied inner) => some (.table .header inner)
      | some _ => none) .header parent.reverse es

/-- A further table opened under a name that stands for several. -/
def openNext (path : List String) (es : Entries) : Option Entries :=
  match path.reverse with
  | [] => none
  | last :: parent =>
    within false (fun _ es => es.alter last fun
      | none => some (.tables [[]])
      | some (.tables items) => some (.tables (items ++ [[]]))
      | some _ => none) .header parent.reverse es

end Entries

end Toml

end Toolpath
