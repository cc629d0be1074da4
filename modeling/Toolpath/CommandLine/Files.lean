import Toolpath.Chunk.Basic

/-!
# Files

The program needs little of a file system: to read a file, to write one, and to ask whether one is
there. `Files` is that interface, so that what the program does can be stated without any outside
world; `Folder` is the simplest thing that satisfies it, a folder that holds files and no further
folders.

A path is followed name by name. It may lead out of the folder, upward or by way of the root, to
folders of which nothing is known but that they are there. On its way it has to stay on folders,
and the first name that fails decides the error.
-/

namespace Toolpath

/-- Why a file could not be read or written. -/
inductive FileError where
  /-- There is no such file, or no folder for it. -/
  | notFound
  /-- What should be a folder on the way is a file. -/
  | notAFolder
  /-- What should be a file is a folder. -/
  | isAFolder
  /-- A name or the whole path has too many bytes. -/
  | nameTooLong
  /-- The file holds no text. -/
  | notText
  /-- Anything else, with its text. -/
  | other (text : String)
deriving DecidableEq, Repr, Inhabited

/-- The text of a file error. -/
def FileError.message : FileError → String
  | notFound => "No such file or directory (os error 2)"
  | notAFolder => "Not a directory (os error 20)"
  | isAFolder => "Is a directory (os error 21)"
  | nameTooLong => "File name too long (os error 36)"
  | notText => "stream did not contain valid UTF-8"
  | other text => text

/-- What the program needs of a file system. -/
class Files (m : Type → Type) where
  /-- The bytes of a file. -/
  read : String → m (Except FileError Bytes)
  /-- A file written, in place of what it held before. -/
  write : String → Bytes → m (Except FileError Unit)
  /-- Whether there is something under a path. -/
  present : String → m Bool

/-! ### Paths -/

/-- A folder that a path leads to. -/
inductive Site where
  /-- The folder so many levels above the one where the path starts. -/
  | above (levels : Nat)
  /-- The folder above all others. -/
  | root
deriving DecidableEq, Repr, Inhabited

/-- The folder above a folder; the root is above itself. -/
def Site.parent : Site → Site
  | above levels => above (levels + 1)
  | root => root

/-- A path taken apart. -/
structure Route where
  /-- Where it starts. -/
  start : Site
  /-- Its names in order. -/
  names : List String
  /-- Whether it ends in a slash. -/
  slashed : Bool
deriving DecidableEq, Repr, Inhabited

namespace Route

/-- The most bytes of a name. -/
def nameLimit : Nat := 255

/-- The most bytes of a path. -/
def pathLimit : Nat := 4095

/-- A path taken apart. Slashes in a row are one. -/
def ofPath (path : String) : Route :=
  let parts := path.splitOn "/"
  { start := if path.startsWith "/" then .root else .above 0
    names := parts.filter (· != "")
    slashed := path.endsWith "/" }

end Route

/-! ### A folder -/

/-- A folder of files, and files that were put elsewhere. -/
structure Folder where
  /-- The files under their names. -/
  files : List (String × Bytes)
  /-- The files in other folders. -/
  others : List ((Site × String) × Bytes) := []

namespace Folder

/-- The bytes of an entry. -/
def get? (f : Folder) (name : String) : Option Bytes :=
  (f.files.find? fun e => e.1 == name).map Prod.snd

/-- The folder with the bytes of an entry replaced. -/
def put (f : Folder) (name : String) (bytes : Bytes) : Folder :=
  { f with files := (name, bytes) :: f.files.filter fun e => e.1 != name }

/-- The bytes of an entry of a folder. -/
def getAt? (f : Folder) : Site → String → Option Bytes
  | .above 0, name => f.get? name
  | site, name => (f.others.find? fun e => e.1 == (site, name)).map Prod.snd

/-- The bytes of an entry of a folder replaced. -/
def putAt (f : Folder) : Site → String → Bytes → Folder
  | .above 0, name, bytes => f.put name bytes
  | site, name, bytes =>
    { f with others := ((site, name), bytes) :: f.others.filter fun e => e.1 != (site, name) }

/-- The bytes of an entry of a folder, or why there are none. -/
def look (f : Folder) (site : Site) (name : String) : Except FileError Bytes :=
  if Route.nameLimit < name.utf8ByteSize then .error .nameTooLong
  else
    match f.getAt? site name with
    | some bytes => .ok bytes
    | none => .error .notFound

/-- What a path leads to. -/
inductive Place where
  /-- A folder that is there. -/
  | folder
  /-- An entry of a folder, if there is one of that name. -/
  | entry (site : Site) (name : String)
deriving DecidableEq, Repr

/-- The place that names lead to from a folder. None but the last may be that of a file. -/
def follow (f : Folder) : Site → List String → Except FileError Place
  | _, [] => .ok .folder
  | site, "." :: names => f.follow site names
  | site, ".." :: names => f.follow site.parent names
  | site, [name] => .ok (.entry site name)
  | site, name :: _ :: _ =>
    match f.look site name with
    | .ok _ => .error .notAFolder
    | .error e => .error e

/-- The place that a path leads to. The empty path leads nowhere. -/
def place (f : Folder) (path : String) : Except FileError Place :=
  if path.isEmpty then .error .notFound
  else if Route.pathLimit < path.utf8ByteSize then .error .nameTooLong
  else f.follow (Route.ofPath path).start (Route.ofPath path).names

/-- The bytes of the file at a path. -/
def read (f : Folder) (path : String) : Except FileError Bytes := do
  match ← f.place path with
  | .folder => throw .isAFolder
  | .entry site name =>
    let bytes ← f.look site name
    if (Route.ofPath path).slashed then throw .notAFolder else return bytes

/-- The file at a path written. A path that ends in a slash asks for a folder. -/
def write (f : Folder) (path : String) (bytes : Bytes) : Except FileError Folder := do
  match ← f.place path with
  | .folder => throw .isAFolder
  | .entry site name =>
    if (Route.ofPath path).slashed then throw .isAFolder
    else if Route.nameLimit < name.utf8ByteSize then throw .nameTooLong
    else return f.putAt site name bytes

/-- Whether there is something at a path. -/
def present (f : Folder) (path : String) : Bool :=
  match f.read path with
  | .ok _ => true
  | .error e => e == .isAFolder

instance : Files (StateM Folder) where
  read path := return (← get).read path
  write path bytes := do
    match (← get).write path bytes with
    | .ok f => set f; return .ok ()
    | .error e => return .error e
  present path := return (← get).present path

end Folder

end Toolpath
