import Toolpath.CommandLine.Arguments

/-!
# Help

The text that explains the program or one of its commands, laid out from the descriptions of the
commands. Within a section the explanations start in one column.
-/

namespace Toolpath

namespace CommandLine

/-- The name under which the program is called. -/
def programName : String := "gcam"

/-- A text with blanks put behind it until it has `width` characters. -/
def padded (width : Nat) (text : String) : String :=
  text ++ String.ofList (List.replicate (width - text.length) ' ')

/-- The lines of a section under its heading. -/
def helpSection (heading : String) (entries : List (String × String)) : String :=
  let width := entries.foldl (fun w e => max w e.1.length) 0
  heading ++ ":\n" ++
    String.join (entries.map fun e => "  " ++ padded width e.1 ++ "  " ++ e.2 ++ "\n")

/-- How an option is given. -/
def OptionSpec.form (o : OptionSpec) : String :=
  (match o.letter with
    | some c => "-" ++ c.toString ++ ", --"
    | none => "    --") ++ o.name ++
    (if o.value.isSome then " <" ++ o.name.toUpper ++ ">" else "")

/-- What an option is for, and what values it takes. -/
def OptionSpec.explanation (o : OptionSpec) : String :=
  match o.value with
  | some (.choice words standard) =>
    o.about ++ " [default: " ++ standard ++ "] [possible values: " ++ String.intercalate ", " words
      ++ "]"
  | _ => o.about

/-- The section on options. -/
def optionSection (options : List OptionSpec) : String :=
  helpSection "Options"
    ((configOption :: options).map (fun o => (o.form, o.explanation))
      ++ [("-h, --help", "Print help")])

/-- The explanation of the command that gives help. -/
def helpAbout : String := "Print this message or the help of the given subcommand(s)"

/-- The text on a topic. -/
def HelpTopic.text : HelpTopic → String
  | program =>
    "Block-based CNC toolpath compiler\n\nUsage: " ++ programName ++ " [OPTIONS] <COMMAND>\n\n"
      ++ helpSection "Commands" (commands.map (fun c => (c.name, c.about)) ++ [("help", helpAbout)])
      ++ "\n" ++ optionSection []
  | command c =>
    c.about ++ "\n\nUsage: " ++ programName ++ " " ++ c.name ++ " [OPTIONS] <" ++ c.operand
      ++ ">\n\n"
      ++ helpSection "Arguments" [("<" ++ c.operand ++ ">", c.operandAbout)]
      ++ "\n" ++ optionSection c.options
  | help =>
    helpAbout ++ "\n\nUsage: " ++ programName ++ " help [COMMAND]...\n\n"
      ++ helpSection "Arguments" [("[COMMAND]...", "Print help for the subcommand(s)")]

end CommandLine

end Toolpath
