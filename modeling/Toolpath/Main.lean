import Toolpath.CommandLine.Run

/-!
# The program

The command line over the files of the machine. All it adds is the way of the outside world: bytes
in files, text on the two outputs, and an exit code.
-/

namespace Toolpath

namespace CommandLine

/-- The file error of an error of the operating system. Its codes come with either sign. -/
def fileErrorOf (e : IO.Error) : FileError :=
  let isCode (code expected : UInt32) : Bool := code == expected || -code == expected
  match e with
  | .noFileOrDirectory .. => .notFound
  | .inappropriateType _ code _ => if isCode code 20 then .notAFolder else .isAFolder
  | .invalidArgument _ code _ => if isCode code 36 then .nameTooLong else .other (toString e)
  | _ => .other (toString e)

/-- An action whose errors are file errors. -/
def guarded {α : Type} (action : IO α) : IO (Except FileError α) := do
  match ← action.toBaseIO with
  | .ok a => return .ok a
  | .error e => return .error (fileErrorOf e)

/-- The bytes of a file. -/
def readFile (path : String) : IO (Except FileError Bytes) :=
  guarded do return (← IO.FS.readBinFile path).data.toList

instance : Files IO where
  read := readFile
  write path bytes := guarded (IO.FS.writeBinFile path ⟨bytes.toArray⟩)
  present path := do
    match ← readFile path with
    | .error .notFound | .error .notAFolder => return false
    | _ => return true

/-- An outcome shown, and its exit code. -/
def Outcome.report (o : Outcome) : IO UInt32 := do
  match o with
  | .done text => IO.print text
  | .failed f => IO.eprintln ("Error: " ++ f.message)
  | .misuse => IO.eprint HelpTopic.program.text
  return o.exitCode.toUInt32

end CommandLine

end Toolpath

/-- The program called with arguments. -/
def main (args : List String) : IO UInt32 := do
  let outcome : Toolpath.CommandLine.Outcome ← Toolpath.CommandLine.run args
  outcome.report
