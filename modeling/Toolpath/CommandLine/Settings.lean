import Toolpath.Simulation.Simulator
import Toolpath.Toml.Document

/-!
# Settings

What a settings file can say: how programs are written and how simulations run. Everything has a
standard value, and what a file says beyond these settings is ignored; a value of the wrong type
makes the whole file invalid.

A section names its settings in a table, or lists them in the order of the names in an array.
-/

namespace Toolpath

/-- How programs are written. -/
structure OutputSettings where
  /-- How lines end. -/
  ending : LineEnding := .lf
  /-- The number of decimal places, if not that of the machine. -/
  decimals : Option Nat := none
deriving DecidableEq, Repr, Inhabited

/-- All settings. -/
structure Settings where
  /-- How programs are written. -/
  output : OutputSettings := {}
  /-- How simulations run. -/
  simulation : SimulationSettings Double := .standard

namespace Settings

open Toml

/-- What a section says under some names, which it may also leave out. -/
def section? (names : List String) : Option Value → Option (List (Option Value))
  | none => some (names.map fun _ => none)
  | some (.table _ es) => some (names.map (Entries.get? es))
  | some (.array items) => some ((List.range names.length).map fun i => items[i]?)
  | some (.tables items) =>
    some ((List.range names.length).map fun i => (items[i]?).map (.table .header))
  | some .moment => some (names.map fun _ => none)
  | some _ => none

/-- A setting read from its value, or its standard value if there is none. -/
def setting? {α : Type} (standard : α) (read : Value → Option α) : Option Value → Option α
  | none => some standard
  | some v => read v

/-- The line ending of a name. -/
def endingOfName? (name : String) : Option LineEnding :=
  if name = "lf" then some .lf else if name = "crlf" then some .crlf else none

/-- Whether a value holds nothing. -/
def isHollow : Value → Bool
  | .table _ es => es.isEmpty
  | .array items => items.isEmpty
  | _ => false

/-- A line ending: its name, or a table that holds nothing but an empty entry of that name. -/
def ending? : Value → Option LineEnding
  | .string name => endingOfName? name
  | .table _ [(name, v)] => if isHollow v then endingOfName? name else none
  | _ => none

/-- A whole number below a bound. -/
def count? (bound : Nat) : Value → Option Nat
  | .integer n => if 0 ≤ n ∧ n < bound then some n.toNat else none
  | _ => none

/-- A number, whole or not. -/
def number? : Value → Option Double
  | .integer n => some (Double.ofInt n)
  | .float x => some x
  | _ => none

/-- A truth value. -/
def truth? : Value → Option Bool
  | .boolean b => some b
  | _ => none

/-- The settings of the section on output. -/
def output? (v : Option Value) : Option OutputSettings := do
  match ← section? ["line_ending", "decimals"] v with
  | [ending, decimals] =>
    return { ending := ← setting? .lf ending? ending
             decimals := ← setting? none (fun v => (count? UInt64.size v).map some) decimals }
  | _ => none

/-- The settings of the section on simulation. -/
def simulation? (v : Option Value) : Option (SimulationSettings Double) := do
  let standard : SimulationSettings Double := .standard
  match ← section? ["resolution", "tool_diameter", "reset"] v with
  | [resolution, toolDiameter, reset] =>
    let word (v : Value) : Option (Option UInt32) :=
      (count? UInt32.size v).map fun n => some (UInt32.ofNat n)
    return { resolution := ← setting? standard.resolution word resolution
             toolDiameter := ← setting? standard.toolDiameter number? toolDiameter
             reset := ← setting? standard.reset truth? reset }
  | _ => none

/-- The settings that a text spells. -/
def read? (text : String) : Option Settings := do
  let es ← Toml.read? text
  return { output := ← output? (Entries.get? es "output")
           simulation := ← simulation? (Entries.get? es "simulation") }

end Settings

end Toolpath
