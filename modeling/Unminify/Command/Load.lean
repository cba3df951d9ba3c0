import Unminify.Files.System
import Unminify.Settings.Decode

/-!
# Loading settings

Settings come from two files: one for all projects, in the directory for configuration, and one in
the project itself, which goes on top. A file that is missing is no error.
-/

namespace Unminify

/-- Why settings cannot be loaded. -/
inductive LoadError
  | file (path : String) (cause : FileError)
  /-- The file is no configuration document; the cause is kept as text. -/
  | malformed (path cause : String)
deriving DecidableEq, Repr, Inhabited

/-- The wording of an error. -/
def LoadError.message : LoadError → String
  | file path cause => "failed to read " ++ path ++ ": " ++ cause.message
  | malformed path cause => "invalid config " ++ path ++ ": " ++ cause

namespace Settings

/-- The settings of a file, unless it is missing. -/
def loadFile (fs : FileSystem) (path : String) : Except LoadError (Option Settings) :=
  match fs.readText path with
  | .error .missing => .ok none
  | .error cause => .error (.file path cause)
  | .ok source =>
    match ofText source with
    | .ok s => .ok (some s)
    | .error e => .error (.malformed path (e.text source))

/-- The settings file of a directory for configuration. -/
def globalPath (configHome : String) : String := Path.join (Path.join configHome "jsnorm") "config.toml"

/-- The settings file of a project. -/
def projectPath (root : String) : String := Path.join (Path.join root ".jsnorm") "config.toml"

/-- The settings for a project. -/
def load (fs : FileSystem) (configHome root : String) : Except LoadError Settings := do
  let shared ← loadFile fs (globalPath configHome)
  let own ← loadFile fs (projectPath root)
  return ([shared, own].filterMap id).foldl merge {}

end Settings

end Unminify
