import Unminify.Files.Path

/-!
# Files

The files that a command reads and writes, as a value. A file has bytes, which need not be a text. A
place is the list of names that leads to it from the working directory; every place on the way to a
file is a directory.
-/

namespace Unminify

/-- What stands at a place. -/
inductive FileEntry
  | file (bytes : ByteArray)
  | directory
deriving Inhabited

/-- Why a file cannot be read or written. -/
inductive FileError
  | missing
  | notDirectory
  | isDirectory
  | taken
  | notText
deriving DecidableEq, Repr, Inhabited

/-- The wording of an error. -/
def FileError.message : FileError → String
  | missing => "No such file or directory (os error 2)"
  | notDirectory => "Not a directory (os error 20)"
  | isDirectory => "Is a directory (os error 21)"
  | taken => "File exists (os error 17)"
  | notText => "stream did not contain valid UTF-8"

/-- A place, as the names that lead to it. -/
abbrev Place := List String

/-- Files and directories. The working directory is always there, and so are the directories above
it. -/
structure FileSystem where
  entries : List (Place × FileEntry) := []
deriving Inhabited

namespace FileSystem

/-- Whether a place is the working directory, the root, or reached by going up only. -/
def isAbove (p : Place) : Bool := p.all fun name => name == "/" || name == ".."

/-- What stands at a place. -/
def entry? (fs : FileSystem) (p : Place) : Option FileEntry :=
  if isAbove p then some .directory else fs.entries.lookup p

/-- The place that a name leads to from a directory. -/
def enter (p : Place) (name : String) : Place :=
  if name = "" || name = "." || (name = ".." && p = ["/"]) then p
  else if name = ".." && !isAbove p then p.dropLast
  else p ++ [name]

/-- Puts an entry at a place. -/
def put (fs : FileSystem) (p : Place) (e : FileEntry) : FileSystem :=
  { entries := fs.entries.filter (·.1 != p) ++ [(p, e)] }

/-- Fails unless a place is a directory. -/
def requireDirectory (fs : FileSystem) (p : Place) : Except FileError Unit :=
  match fs.entry? p with
  | some .directory => .ok ()
  | some (.file _) => .error .notDirectory
  | none => .error .missing

/-- The place that parts of a path lead to from a place. All places that are passed are directories,
and so is the last one if the path ends in a slash. -/
def follow (fs : FileSystem) : Place → List String → Except FileError Place
  | p, [] => .ok p
  | p, part :: rest => do
    fs.requireDirectory p
    fs.follow (enter p part) rest

/-- The place that a path leads to. -/
def resolve (fs : FileSystem) (path : String) : Except FileError Place :=
  if path.isEmpty then .error .missing
  else fs.follow (if Path.isAbsolute path then ["/"] else []) (Path.parts path)

/-- Whether a path leads to a directory. -/
def isDirectory (fs : FileSystem) (path : String) : Bool :=
  match fs.resolve path with
  | .ok p => (fs.requireDirectory p).isOk
  | .error _ => false

/-- The text of a file. -/
def readText (fs : FileSystem) (path : String) : Except FileError String := do
  match fs.entry? (← fs.resolve path) with
  | none => .error .missing
  | some .directory => .error .isDirectory
  | some (.file bytes) =>
    match String.fromUTF8? bytes with
    | some text => return text
    | none => .error .notText

/-- The names in a directory, in order. -/
def list (fs : FileSystem) (path : String) : List String :=
  match fs.resolve path with
  | .ok p =>
    let names := fs.entries.filterMap fun (q, _) =>
      if q.dropLast = p then q.getLast? else none
    names.mergeSort fun a b => !(b < a)
  | .error _ => []

/-- Makes the directories that names lead through from a place. -/
def makeDirectories (fs : FileSystem) : Place → List String → Except FileError FileSystem
  | _, [] => .ok fs
  | p, name :: rest => do
    let q := enter p name
    match fs.entry? q with
    | some .directory => fs.makeDirectories q rest
    | some (.file _) => .error (if rest.isEmpty then .taken else .notDirectory)
    | none => (fs.put q .directory).makeDirectories q rest

/-- Writes a text to a file. The directories on the way are made if they are missing. -/
def writeText (fs : FileSystem) (path text : String) : Except FileError FileSystem := do
  let start : Place := if Path.isAbsolute path then ["/"] else []
  let fs ← fs.makeDirectories start (Path.names path).dropLast
  if path.isEmpty then .error .missing
  else if (Path.parts path).getLast? = some "" then .error .isDirectory
  else
    let p ← fs.resolve path
    match fs.entry? p with
    | some .directory => .error .isDirectory
    | _ => return fs.put p (.file text.toUTF8)

/-- Adds an entry, and the directories on the way to it. -/
def add (fs : FileSystem) (path : String) (e : FileEntry) : FileSystem :=
  let p := (Path.place path).foldl enter []
  let withParents := (List.range p.length).foldl (fun (fs : FileSystem) n =>
    let parent := p.take n
    if (fs.entry? parent).isSome then fs else fs.put parent .directory) fs
  if isAbove p then withParents else withParents.put p e

end FileSystem

end Unminify
