import Toolpath.Document.Machine
import Toolpath.Text.Lines

/-!
# Arguments

What can be asked of the program on its command line. Each command is described by a value: its
options, what they take, and the one operand it needs. Arguments are read from left to right by
one scanner for all commands; it checks every value as it comes, stops at a request for help, and
looks at what is missing or in conflict only at the end. The wording of usage errors is of no
concern here, only when there is one.
-/

namespace Toolpath

namespace CommandLine

/-- What a value has to look like. -/
inductive ValueKind where
  /-- A path, which is not empty. -/
  | path
  /-- Any text. -/
  | text
  /-- One of some words. -/
  | choice (words : List String) (standard : String)
  /-- A natural number below a bound. A minus sign is accepted in front of zero where `signed`
  says so. -/
  | number (bound : Nat) (signed : Bool)
deriving DecidableEq, Repr

/-- An option of a command. -/
structure OptionSpec where
  /-- The name behind two hyphens. -/
  name : String
  /-- The letter behind one hyphen, if there is one. -/
  letter : Option Char
  /-- The value it takes, if it takes one. -/
  value : Option ValueKind
  /-- What it is for. -/
  about : String
deriving DecidableEq, Repr

/-- A command. -/
structure CommandSpec where
  /-- The name. -/
  name : String
  /-- What it does. -/
  about : String
  /-- The name of its operand. -/
  operand : String
  /-- What the operand is. -/
  operandAbout : String
  /-- Its options. -/
  options : List OptionSpec
  /-- The options that exclude each other. -/
  exclusive : List (String × String)
deriving DecidableEq, Repr

/-- The option that is understood before and behind every command. -/
def configOption : OptionSpec :=
  ⟨"config", some 'c', some .path, "Settings file (default: ./gcam.toml when present)"⟩

/-- The command that writes a demonstration project. -/
def newCommand : CommandSpec where
  name := "new"
  about := "Write a demo project"
  operand := "OUTPUT"
  operandAbout := "Output .gcam file"
  options :=
    [⟨"name", some 'n', some .text, "Project name (default: derived from filename)"⟩,
      ⟨"units", none, some (.choice ["inch", "mm"] "inch"), "Unit system of the project"⟩,
      ⟨"driver", none, some (.choice ["linuxcnc", "turbocnc", "haas"] "linuxcnc"),
        "Machine driver"⟩]
  exclusive := []

/-- The command that describes a project. -/
def infoCommand : CommandSpec where
  name := "info"
  about := "Display information about a project"
  operand := "FILE"
  operandAbout := "Path to the .gcam file"
  options := [⟨"json", none, none, "Print JSON instead of text"⟩]
  exclusive := []

/-- The command that writes a program. -/
def generateCommand : CommandSpec where
  name := "generate"
  about := "Write the G-code program of a project"
  operand := "INPUT"
  operandAbout := "Input .gcam file"
  options :=
    [⟨"output", some 'o', some .path, "Output file (default: stdout)"⟩,
      ⟨"crlf", none, none, "Use CRLF line endings"⟩,
      ⟨"lf", none, none, "Use LF line endings"⟩,
      ⟨"decimals", none, some (.number UInt64.size false), "Decimal places for coordinates"⟩]
  exclusive := [("crlf", "lf")]

/-- The command that simulates a program. -/
def simulateCommand : CommandSpec where
  name := "simulate"
  about := "Cut the project's stock in the voxel simulator"
  operand := "INPUT"
  operandAbout := "Input .gcam file"
  options :=
    [⟨"program", some 'p', some .path, "Simulate this program instead of the generated one"⟩,
      ⟨"resolution", some 'r', some (.number UInt32.size true),
        "Cells along the stock's longest axis"⟩,
      ⟨"json", none, none, "Print JSON instead of text"⟩]
  exclusive := []

/-- All commands. -/
def commands : List CommandSpec := [newCommand, infoCommand, generateCommand, simulateCommand]

/-! ### Scanning -/

/-- What has been found among the arguments of a command. -/
structure Found where
  /-- The options given, each with its value, or an empty one. -/
  options : List (String × String) := []
  /-- The operands. -/
  operands : List String := []
deriving DecidableEq, Repr, Inhabited

/-- How scanning can stop before its end. -/
inductive Stop where
  /-- Help was asked for. -/
  | help
  /-- The arguments do not fit. -/
  | misuse
deriving DecidableEq, Repr, Inhabited

/-- The number that a text spells: digits, behind a plus sign or none. -/
def natural? (text : String) : Option Nat :=
  let ds := match text.toList with
    | '+' :: ds => ds
    | ds => ds
  if ds.isEmpty || !ds.all Char.isDigit then none
  else some (ds.foldl (fun n c => 10 * n + (c.toNat - '0'.toNat)) 0)

/-- The number that a value spells. -/
def number? (bound : Nat) (signed : Bool) (text : String) : Option Nat :=
  let zero := match text.toList with
    | '-' :: ds => signed && !ds.isEmpty && ds.all (· == '0')
    | _ => false
  if zero then some 0 else (natural? text).filter (· < bound)

/-- Whether a value has the right form. -/
def ValueKind.accepts : ValueKind → String → Bool
  | path, v => !v.isEmpty
  | text, _ => true
  | choice words _, v => words.contains v
  | number bound signed, v => (number? bound signed v).isSome

/-- Whether an argument is taken for an option wherever it stands. -/
def looksLikeOption (arg : String) : Bool :=
  match arg.toList with
  | '-' :: _ :: _ => true
  | _ => false

/-- The option with a value noted. An option is given at most once. -/
def Found.note (f : Found) (o : OptionSpec) (v : String) : Except Stop Found :=
  let fits := match o.value with
    | some k => k.accepts v
    | none => true
  if fits && !(f.options.any fun p => p.1 == o.name) then
    .ok { f with options := f.options ++ [(o.name, v)] }
  else .error .misuse

/-- An operand noted, if there is room for one. -/
def Found.operand (f : Found) (room : Nat) (v : String) : Except Stop Found :=
  if f.operands.length < room ∧ v ≠ "" then .ok { f with operands := f.operands ++ [v] }
  else .error .misuse

/-- What an argument that looks like an option asks for. -/
inductive Asked where
  /-- Help. -/
  | help
  /-- An option that needs no further argument. -/
  | given (o : OptionSpec) (v : String)
  /-- An option whose value is the next argument. -/
  | needsValue (o : OptionSpec)
  /-- Nothing that is known. -/
  | unknown

/-- What is asked for by an option with a value attached, or none. -/
def Asked.ofOption (o : OptionSpec) (attached : Option (List Char)) : Asked :=
  match o.value, attached with
  | none, none => given o ""
  | none, some _ => unknown
  | some _, some v => given o (String.ofList v)
  | some _, none => needsValue o

/-- What an argument behind two hyphens asks for. A value may follow an equals sign. -/
def Asked.byName (options : List OptionSpec) (text : List Char) : Asked :=
  let name := String.ofList (text.takeWhile (· != '='))
  let attached := (text.dropWhile (· != '=')).tail?
  if name = "help" then if attached.isNone then help else unknown
  else
    match options.find? fun o => o.name == name with
    | none => unknown
    | some o => ofOption o attached

/-- What an argument behind one hyphen asks for. A value may follow the letter, with an equals sign
before it or without. -/
def Asked.byLetter (options : List OptionSpec) : List Char → Asked
  | [] => unknown
  | c :: rest =>
    if c = 'h' then help
    else
      match options.find? fun o => o.letter == some c with
      | none => unknown
      | some o =>
        ofOption o (match rest with
          | [] => none
          | '=' :: v => some v
          | v => some v)

/-- What an argument asks for. -/
def Asked.ofArgument (options : List OptionSpec) (arg : String) : Asked :=
  match arg.toList with
  | '-' :: '-' :: rest => byName options rest
  | _ :: rest => byLetter options rest
  | [] => unknown

/-- Operands noted one after the other. -/
def Found.operandsOf (f : Found) (room : Nat) : List String → Except Stop Found
  | [] => .ok f
  | v :: rest =>
    match f.operand room v with
    | .ok f => f.operandsOf room rest
    | .error e => .error e

/-- Arguments scanned up to the first that is no option, where `stops` says so, and what is left.
Behind two hyphens everything is an operand. -/
def scan (options : List OptionSpec) (room : Nat) (stops : Bool) (f : Found) :
    List String → Except Stop (Found × List String)
  | [] => .ok (f, [])
  | arg :: rest =>
    if arg = "--" then (f.operandsOf room rest).map fun f => (f, [])
    else if looksLikeOption arg then
      match Asked.ofArgument options arg, rest with
      | .help, _ => .error .help
      | .given o v, rest =>
        match f.note o v with
        | .ok f => scan options room stops f rest
        | .error e => .error e
      | .needsValue o, v :: rest =>
        if looksLikeOption v then .error .misuse
        else
          match f.note o v with
          | .ok f => scan options room stops f rest
          | .error e => .error e
      | .needsValue _, [] => .error .misuse
      | .unknown, _ => .error .misuse
    else if stops then .ok (f, arg :: rest)
    else
      match f.operand room arg with
      | .ok f => scan options room stops f rest
      | .error e => .error e

/-! ### Requests -/

/-- What the program is asked to do. -/
inductive Request where
  /-- To write a demonstration project. -/
  | create (output : String) (name : Option String) (units : Units) (controller : Controller)
  /-- To describe a project. -/
  | info (file : String) (json : Bool)
  /-- To write a program. -/
  | generate (input : String) (output : Option String) (ending : Option LineEnding)
    (decimals : Option Nat)
  /-- To simulate a program. -/
  | simulate (input : String) (program : Option String) (resolution : Option UInt32) (json : Bool)
deriving DecidableEq, Repr

/-- What there is help on. -/
inductive HelpTopic where
  /-- The program. -/
  | program
  /-- A command. -/
  | command (c : CommandSpec)
  /-- The command that gives help. -/
  | help
deriving DecidableEq, Repr

/-- What a command line means. -/
inductive Invocation where
  /-- A request, with the path of a settings file if one is given. -/
  | request (config : Option String) (r : Request)
  /-- A request for help. -/
  | help (topic : HelpTopic)
  /-- The arguments do not fit. -/
  | misuse
deriving DecidableEq, Repr

/-- The value given for an option. -/
def Found.value? (f : Found) (name : String) : Option String :=
  (f.options.find? fun p => p.1 == name).map Prod.snd

/-- Whether an option is given. -/
def Found.has (f : Found) (name : String) : Bool := (f.value? name).isSome

/-- The units of a word. -/
def unitsOf (word : Option String) : Units := if word = some "mm" then .millimeter else .inch

/-- The controller of a word. -/
def controllerOf (word : Option String) : Controller :=
  if word = some "turbocnc" then .turboCnc else if word = some "haas" then .haas else .linuxCnc

/-- The request that a command makes with what was found among its arguments. -/
def requestOf (c : CommandSpec) (operand : String) (f : Found) : Request :=
  if c.name = newCommand.name then
    .create operand (f.value? "name") (unitsOf (f.value? "units"))
      (controllerOf (f.value? "driver"))
  else if c.name = infoCommand.name then .info operand (f.has "json")
  else if c.name = generateCommand.name then
    .generate operand (f.value? "output")
      (if f.has "crlf" then some .crlf else if f.has "lf" then some .lf else none)
      ((f.value? "decimals").bind (number? UInt64.size false))
  else
    .simulate operand (f.value? "program")
      (((f.value? "resolution").bind (number? UInt32.size true)).map UInt32.ofNat) (f.has "json")

/-- What the arguments of a command mean. The settings file named nearest to the end counts. -/
def invoke (outer : Found) (c : CommandSpec) (args : List String) : Invocation :=
  match scan (configOption :: c.options) 1 false {} args with
  | .error .help => .help (.command c)
  | .error .misuse => .misuse
  | .ok (f, _) =>
    match f.operands with
    | [operand] =>
      if c.exclusive.any fun p => f.has p.1 && f.has p.2 then .misuse
      else .request ((f.value? "config").or (outer.value? "config")) (requestOf c operand f)
    | _ => .misuse

/-- What is meant by arguments that ask for help by a command. -/
def helpOn : List String → Invocation
  | [] => .help .program
  | [name] =>
    if name = "help" then .help .help
    else
      match commands.find? fun c => c.name == name with
      | some c => .help (.command c)
      | none => .misuse
  | _ => .misuse

/-- What a command line means. -/
def interpret (args : List String) : Invocation :=
  match scan [configOption] 0 true {} args with
  | .error .help => .help .program
  | .error .misuse => .misuse
  | .ok (_, []) => .misuse
  | .ok (outer, name :: rest) =>
    if name = "help" then helpOn rest
    else
      match commands.find? fun c => c.name == name with
      | some c => invoke outer c rest
      | none => .misuse

end CommandLine

end Toolpath
