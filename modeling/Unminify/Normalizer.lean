import Unminify.Pass.Run
import Unminify.Settings

/-!
# Normalizing source text

Reads a text, makes passes over it until one of them changes nothing or their number reaches a bound,
and writes the result. Between passes the program is written and read again, so that all identifiers
have positions.
-/

namespace Unminify

/-- Why a text cannot be normalized. -/
inductive NormalizeError
  | read (cause : ReadError)
  | pass (cause : PassError)
deriving DecidableEq, Repr, Inhabited

/-- The wording of an error. -/
def NormalizeError.message : NormalizeError → String
  | read cause => cause.message
  | pass cause => cause.message

/-- A normalized program. -/
structure Normalized where
  program : Program
  /-- What all passes did together. -/
  stats : Stats
  /-- The number of passes, with the last one that changed nothing. -/
  passes : Nat

/-- The text of a normalized program. -/
def Normalized.code (n : Normalized) : String := n.program.text

/-- A table of rules and a bound on passes. -/
structure Normalizer where
  table : RuleTable
  maxPasses : Nat

namespace Normalizer

/-- The bound on passes where nothing else is said. -/
def defaultMaxPasses : Nat := 8

/-- The normalizer that settings ask for. At least one pass is made. -/
def ofSettings (s : Settings) : Except RuleError Normalizer := do
  return { table := ← s.table, maxPasses := max 1 (s.maxPasses.getD defaultMaxPasses) }

/-- Makes at most `remaining` further passes. -/
def passes (table : RuleTable) : (remaining : Nat) → Normalized → Except NormalizeError Normalized
  | 0, n => .ok n
  | remaining + 1, n =>
    match table.pass n.program with
    | (_, .error cause) => .error (.pass cause)
    | (p, .ok stats) =>
      if stats.changed then
        match Program.read p.text with
        | .error cause => .error (.read cause)
        | .ok p => passes table remaining
            { program := p, stats := n.stats.merge stats, passes := n.passes + 1 }
      else .ok { n with program := p, passes := n.passes + 1 }

/-- Normalizes a text. -/
def normalize (n : Normalizer) (source : String) : Except NormalizeError Normalized :=
  match Program.read source with
  | .error cause => .error (.read cause)
  | .ok p => passes n.table n.maxPasses { program := p, stats := {}, passes := 0 }

end Normalizer

end Unminify
