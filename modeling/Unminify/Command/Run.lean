import Unminify.Command.Load
import Unminify.Language
import Unminify.Normalizer
import Unminify.Syntax.Dump

/-!
# The command

Normalizes a file, a directory or the standard input. A directory is normalized file by file, each
into the same relative path under the output directory. With a request for dumps, the tree is written
instead of source text.

The command is a function on files, so everything it does shows in its result.
-/

namespace Unminify

/-- What the command is asked to do. -/
structure Request where
  /-- A file, a directory, or `-` for the standard input. -/
  input : Option String := none
  output : Option String := none
  passes : Option Nat := none
  /-- Names of rules to leave out. -/
  disabled : List String := []
  /-- Write trees instead of source text. -/
  dump : Bool := false
  /-- List the rules and do nothing else. -/
  listRules : Bool := false
deriving Repr, Inhabited

/-- What the command works with. -/
structure Surroundings where
  files : FileSystem
  stdin : String := ""
  /-- The directory for configuration. -/
  configHome : String
  /-- The project's directory. -/
  root : String := "."

/-- Why the command failed. -/
inductive CommandError
  | load (cause : LoadError)
  | rule (cause : RuleError)
  | noInput
  | noOutput
  | read (path : String) (cause : FileError)
  /-- What could not be normalized: a path or the standard input. -/
  | normalize (what : String) (cause : NormalizeError)
  | write (path : String) (cause : FileError)
deriving DecidableEq, Repr, Inhabited

/-! ## Reports

The report of an error gives its wording and then the wordings of its causes, one after the other,
although a wording may have told the cause already. -/

def CompileError.wordings (e : CompileError) : List String :=
  e.message :: match e with
    | .unreadable cause => [cause.message]
    | _ => []

def RuleError.wordings (e : RuleError) : List String :=
  e.message :: match e with
    | .pattern _ cause | .replacement _ cause => cause.wordings
    | _ => []

def PassError.wordings (e : PassError) : List String :=
  e.message :: match e with
    | .fill _ cause => [cause.message]
    | _ => []

def NormalizeError.wordings : NormalizeError → List String
  | .read cause => [cause.message]
  | .pass cause => cause.wordings

def LoadError.wordings (e : LoadError) : List String :=
  e.message :: match e with
    | .file _ cause => [cause.message]
    | .malformed _ cause => [cause]

def CommandError.wordings : CommandError → List String
  | load cause => cause.wordings
  | rule cause => cause.wordings
  | noInput => ["no input given"]
  | noOutput => ["--output is required when the input is a directory"]
  | read path cause => ["failed to read " ++ path, cause.message]
  | normalize what cause => ("failed to normalize " ++ what) :: cause.wordings
  | write path cause => ["failed to write " ++ path, cause.message]

/-- The report of an error. -/
def CommandError.report (e : CommandError) : String := ": ".intercalate e.wordings

/-! ## The run -/

/-- What a run has done so far. -/
structure Progress where
  files : FileSystem
  stdout : String := ""
  stderr : String := ""

abbrev Command := ExceptT CommandError (StateM Progress)

namespace Command

/-- Writes to the standard output. -/
def print (text : String) : Command Unit := modify fun s => { s with stdout := s.stdout ++ text }

/-- Writes a line to the standard error output. -/
def report (line : String) : Command Unit := modify fun s => { s with stderr := s.stderr ++ line ++ "\n" }

/-- Whether a path is that of a source file. -/
def isSource (path : String) : Bool := (Path.extension? path).any Language.extensions.contains

/-- The text of a result. -/
def render (n : Normalized) (dump : Bool) : String :=
  if dump then n.program.document.pretty ++ "\n" else n.code

/-- Normalizes the text of something. -/
def normalizeText (n : Normalizer) (what source : String) : Command Normalized :=
  match n.normalize source with
  | .ok out => return out
  | .error cause => throw (.normalize what cause)

/-- Normalizes a file. -/
def normalizeFile (n : Normalizer) (path : String) : Command Normalized := do
  match (← get).files.readText path with
  | .ok source => normalizeText n path source
  | .error cause => throw (.read path cause)

/-- Writes a file. -/
def writeFile (path text : String) : Command Unit := do
  match (← get).files.writeText path text with
  | .ok files => modify ({ · with files })
  | .error cause => throw (.write path cause)

/-- Where the result for a source file goes. -/
def target (outDir relative : String) (dump : Bool) : String :=
  let path := Path.join outDir relative
  if dump then Path.withExtension path "json" else path

/-- How deep directories are looked into; no path is longer than this. -/
def directoryDepth : Nat := 4096

/-- Normalizes the source files under a directory in the order of their names, and counts them. The
directory is given by its path and by its path relative to the input. -/
def normalizeUnder (n : Normalizer) (outDir : String) (dump : Bool) :
    Nat → (path relative : String) → Command Nat
  | 0, _, _ => return 0
  | depth + 1, path, relative => do
    let names := (← get).files.list path
    let counts ← names.mapM fun name => do
      let path := Path.join path name
      let relative := Path.join relative name
      if (← get).files.isDirectory path then normalizeUnder n outDir dump depth path relative
      else if isSource path then
        let out ← normalizeFile n path
        writeFile (target outDir relative dump) (render out dump)
        return 1
      else return 0
    return counts.sum

/-- Gives a result to the output file, or prints it. -/
def emit (r : Request) (n : Normalized) : Command Unit := do
  let text := render n r.dump
  match r.output with
  | some path =>
    writeFile path text
    report ("Normalized " ++ r.input.getD "" ++ " -> " ++ path ++ " (" ++ toString n.stats.total ++ " changes)")
  | none => print text

/-- Carries out a request with a normalizer. -/
def perform (r : Request) (n : Normalizer) (stdin : String) : Command Unit := do
  if r.listRules then print n.table.listing
  else
    match r.input with
    | none => throw .noInput
    | some "-" => emit r (← normalizeText n "stdin" stdin)
    | some input =>
      if (← get).files.isDirectory input then
        match r.output with
        | none => throw .noOutput
        | some outDir =>
          let count ← normalizeUnder n outDir r.dump directoryDepth input ""
          report ("Normalized " ++ toString count ++ " files: " ++ input ++ " -> " ++ outDir)
      else emit r (← normalizeFile n input)

/-- The settings of a request on top of those that are loaded. -/
def settings (r : Request) (loaded : Settings) : Settings :=
  { loaded with maxPasses := r.passes <|> loaded.maxPasses }.disabling r.disabled

/-- The whole command. -/
def execute (r : Request) (around : Surroundings) : Command Unit := do
  let loaded ←
    match Settings.load around.files around.configHome around.root with
    | .ok s => pure s
    | .error cause => throw (.load cause)
  match Normalizer.ofSettings (settings r loaded) with
  | .ok n => perform r n around.stdin
  | .error cause => throw (.rule cause)

end Command

/-- Runs the command: what it did, and whether it failed. -/
def Request.run (r : Request) (around : Surroundings) : Except CommandError Unit × Progress :=
  ((Command.execute r around).run).run { files := around.files }

end Unminify
