import Toolpath.CommandLine.Demo
import Toolpath.CommandLine.Files
import Toolpath.CommandLine.Help
import Toolpath.CommandLine.Report
import Toolpath.CommandLine.Settings
import Toolpath.Project.File
import Toolpath.Synthesis.Program

/-!
# Running the program

A command line is carried out over whatever file system there is. What comes out is an `Outcome`:
the text printed, or the reason why there is none. A command prints only once all its work has
succeeded, so that there is never a part of an answer.

Settings are read before anything else, whether the command needs them or not.
-/

namespace Toolpath

namespace CommandLine

/-- Why a project could not be loaded or saved. -/
inductive StorageError where
  /-- The file could not be read or written. -/
  | file (e : FileError)
  /-- The bytes are no project, or the project has no bytes. -/
  | codec (e : CodecError)
deriving DecidableEq, Repr

/-- Why a command failed. -/
inductive Failure where
  /-- The settings file could not be read. -/
  | settingsUnread (path : String) (e : FileError)
  /-- The settings file makes no sense. -/
  | settingsInvalid (path : String)
  /-- The project could not be loaded. -/
  | loading (path : String) (e : StorageError)
  /-- The project could not be saved. -/
  | saving (e : StorageError)
  /-- The project has an empty program. -/
  | noCode (path : String)
  /-- The program could not be read. -/
  | reading (path : String) (e : FileError)
  /-- The program could not be written. -/
  | writing (path : String) (e : FileError)
  /-- The simulation was refused. -/
  | simulation (e : SimulationError Double)

/-- The text of an error with those of its causes behind it. -/
def StorageError.chain : StorageError → List String
  | file e => ["I/O error: " ++ e.message, e.message]
  | codec (.invalidUtf8 fault) => [(CodecError.invalidUtf8 fault).message, fault.message]
  | codec e => [e.message]

namespace Failure

/-- The text of a failure with those of its causes behind it. -/
def chain : Failure → List String
  | settingsUnread path e => ["reading config " ++ path, e.message]
  | settingsInvalid path => ["parsing config " ++ path]
  | loading path e => ("loading " ++ path) :: e.chain
  | saving e => e.chain
  | noCode path => [path ++ " produced no code"]
  | reading path e => ["reading " ++ path, e.message]
  | writing path e => ["writing " ++ path, e.message]
  | simulation e => [e.message]

/-- The causes of a failure, indented; several ones are numbered. -/
def causes : List String → List String
  | [cause] => ["    " ++ cause]
  | cs => cs.mapIdx fun i c => "    " ++ toString i ++ ": " ++ c

/-- The text of a failure above its causes. -/
def layout : List String → String
  | [] => ""
  | [top] => top
  | top :: cs => String.intercalate "\n" (top :: "" :: "Caused by:" :: causes cs)

/-- The message of a failure. -/
def message (f : Failure) : String := layout f.chain

end Failure

/-- What comes of a command line. -/
inductive Outcome where
  /-- Everything was done, and this was printed. -/
  | done (text : String)
  /-- The command failed. -/
  | failed (f : Failure)
  /-- The arguments do not fit. -/
  | misuse

/-- The exit code of the program. -/
def Outcome.exitCode : Outcome → Nat
  | done _ => 0
  | failed _ => 1
  | misuse => 2

/-! ### Files -/

section

variable {m : Type → Type} [Monad m] [Files m]

/-- The text of a file. -/
def readText (path : String) : ExceptT FileError m String :=
  ExceptT.mk do
    match ← Files.read path with
    | .error e => return .error e
    | .ok bytes => return (Utf8.decode bytes).mapError fun _ => .notText

/-- Something that can fail, as part of a command. -/
def orFail {ε α : Type} (failure : ε → Failure) (x : ExceptT ε m α) : ExceptT Failure m α :=
  ExceptT.adapt failure x

/-- The name of the settings file that is read if no other one is named. -/
def settingsFile : String := "gcam.toml"

/-- The settings in a file. -/
def readSettings (path : String) : ExceptT Failure m Settings := do
  let text ← orFail (.settingsUnread path) (readText path)
  match Settings.read? text with
  | some s => return s
  | none => throw (.settingsInvalid path)

/-- The settings that hold for a command. -/
def loadSettings (config : Option String) : ExceptT Failure m Settings := do
  match config with
  | some path => readSettings path
  | none => if ← (Files.present settingsFile : m Bool) then readSettings settingsFile else return {}

/-- The project in a file. -/
def loadProject (path : String) : ExceptT Failure m Project := do
  let bytes ← orFail (.loading path ∘ .file) (ExceptT.mk (Files.read path))
  orFail (.loading path ∘ .codec) (ExceptT.mk (pure (ProjectFile.decode bytes)))

/-- A project put into a file. -/
def saveProject (path : String) (d : Project) : ExceptT Failure m Unit := do
  let bytes ← orFail (.saving ∘ .codec) (ExceptT.mk (pure (ProjectFile.encode d)))
  orFail (.saving ∘ .file) (ExceptT.mk (Files.write path bytes))

/-! ### Commands -/

/-- The name of a file without what follows its last point; a point at its start is part of the
name. -/
def stem (name : String) : String :=
  match (name.toList.reverse.dropWhile (· != '.')).tail? with
  | none | some [] => name
  | some cs => String.ofList cs.reverse

/-- The project name that a path suggests. -/
def nameFrom (path : String) : String :=
  match ((path.splitOn "/").filter fun p => p != "" && p != ".").getLast? with
  | none | some ".." => "Untitled"
  | some name => stem name

/-- A demonstration project written to a file. -/
def create (output : String) (name : Option String) (units : Units) (controller : Controller) :
    ExceptT Failure m String := do
  let d := Demo.project (name.getD (nameFrom output)) controller units
  saveProject output d
  return paragraph ["Wrote " ++ d.name ++ " (" ++ toString d.blockCount ++ " blocks) to " ++ output]

/-- A project described. -/
def info (file : String) (json : Bool) : ExceptT Failure m String := do
  let d ← loadProject file
  return if json then paragraph [d.json.pretty 0] else d.description file

/-- The program of a project printed, or written to a file. -/
def generate (settings : OutputSettings) (input : String) (output : Option String) :
    ExceptT Failure m String := do
  let d ← loadProject input
  let (program, _) := d.generate settings.ending settings.decimals
  if program.isEmpty then throw (.noCode input)
  match output with
  | none => return program
  | some path =>
    orFail (.writing path) (ExceptT.mk (Files.write path (Utf8.encode program)))
    return ""

/-- A program simulated on the stock of a project; its own program if no other one is named. -/
def simulate (settings : Settings) (input : String) (program : Option String) (json : Bool) :
    ExceptT Failure m String := do
  let d ← loadProject input
  let (program, d) ← match program with
    | some path => do
      let text ← orFail (.reading path) (readText path)
      pure (text, d)
    | none => pure (d.generate settings.output.ending settings.output.decimals)
  match d.simulate program settings.simulation with
  | .error e => throw (.simulation e)
  | .ok (report, d) =>
    return if json then paragraph [(report.json d).pretty 0] else report.description d input

/-- A request carried out. -/
def perform (settings : Settings) : Request → ExceptT Failure m String
  | .create output name units controller => create output name units controller
  | .info file json => info file json
  | .generate input output ending decimals =>
    generate
      { ending := ending.getD settings.output.ending
        decimals := decimals.or settings.output.decimals }
      input output
  | .simulate input program resolution json =>
    let simulation := settings.simulation
    simulate
      { settings with
        simulation := { simulation with resolution := resolution.or simulation.resolution } }
      input program json

/-- A command line carried out. -/
def run (args : List String) : m Outcome := do
  match interpret args with
  | .misuse => return .misuse
  | .help topic => return .done topic.text
  | .request config r =>
    match ← (loadSettings config >>= fun settings => perform settings r).run with
    | .ok text => return .done text
    | .error f => return .failed f

end

end CommandLine

end Toolpath
