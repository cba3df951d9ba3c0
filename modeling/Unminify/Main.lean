import Unminify.Command.Arguments

/-!
# The program

Copies the files that a request is about into a `FileSystem`, carries out the request on it, and
writes out what has changed.
-/

namespace Unminify.Shell

/-- Adds what stands at a path, with everything under a directory. -/
partial def capture (fs : FileSystem) (path : String) : IO FileSystem := do
  let real := (← IO.currentDir) / path
  if ← real.isDir then
    let mut fs := fs.add path .directory
    for entry in ← real.readDir do
      fs ← capture fs (Path.join path entry.fileName)
    return fs
  else if ← real.pathExists then
    return fs.add path (.file (← IO.FS.readBinFile real))
  else
    return fs

/-- Adds a path and the places on the way to it, without what is under a directory. -/
def captureWay (fs : FileSystem) (path : String) : IO FileSystem := do
  let place := Path.place path
  let mut fs := fs
  for n in List.range place.length do
    let path := Path.ofPlace (place.take (n + 1))
    let real := (← IO.currentDir) / path
    if ← real.isDir then
      fs := fs.add path .directory
    else if ← real.pathExists then
      fs := fs.add path (.file (← IO.FS.readBinFile real))
  return fs

/-- Writes the files that differ from what they were. -/
def release (old new : FileSystem) : IO Unit := do
  for (place, entry) in new.entries do
    let real := (← IO.currentDir) / Path.ofPlace place
    match entry, old.entry? place with
    | .directory, some _ => pure ()
    | .directory, none => IO.FS.createDirAll real
    | .file bytes, some (.file before) =>
      if bytes.data != before.data then IO.FS.writeBinFile real bytes
    | .file bytes, _ => IO.FS.writeBinFile real bytes

/-- All lines of a stream. -/
partial def readAll (stream : IO.FS.Stream) (before : String) : IO String := do
  let line ← stream.getLine
  if line.isEmpty then return before else readAll stream (before ++ line)

/-- The directory for configuration. -/
def configHome : IO String := do
  match ← IO.getEnv "XDG_CONFIG_HOME" with
  | some path => return path
  | none => return Path.join ((← IO.getEnv "HOME").getD "") ".config"

/-- Carries out a request. -/
def serve (r : Request) : IO UInt32 := do
  let home ← configHome
  let root := (← IO.currentDir).toString
  let mut files : FileSystem := {}
  for path in [Settings.globalPath home, Settings.projectPath root] ++ r.output.toList do
    files ← captureWay files path
  if let some path := r.input then
    files ← captureWay files path
    files ← capture files path
  let stdin ← if r.input = some "-" then readAll (← IO.getStdin) "" else pure ""
  let (outcome, done) := r.run { files, stdin, configHome := home, root }
  release files done.files
  IO.print done.stdout
  IO.eprint done.stderr
  match outcome with
  | .ok () => return 0
  | .error e =>
    IO.eprintln ("error: " ++ e.report)
    return 1

end Unminify.Shell

def main (args : List String) : IO UInt32 := do
  match Unminify.Request.ofArguments args with
  | .ok r => Unminify.Shell.serve r
  | .error e =>
    IO.eprintln ("error: " ++ e.message)
    return 2
