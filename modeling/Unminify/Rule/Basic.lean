import Unminify.Pattern.Compile
import Unminify.Pattern.Fill
import Unminify.Pattern.Match

/-!
# Rules

A rule has a pattern and a template for what replaces a match. Both are expressions, or both are
statements. A pattern of several statements spans a window of a statement list.
-/

namespace Unminify

/-- A rule as it is written. -/
structure RuleSpec where
  name : String
  pattern : String
  replacement : String
deriving DecidableEq, Repr, Inhabited

/-- A compiled rule. -/
structure Rule where
  name : String
  pattern : Pattern
  replacement : Pattern
  /-- An expression is replaced by an expression, a statement by a statement. -/
  agree : pattern.isExpr = replacement.isExpr

/-- Why a rule or a table of rules cannot be made. -/
inductive RuleError
  | pattern (rule : String) (cause : CompileError)
  | replacement (rule : String) (cause : CompileError)
  | shapes (rule pattern replacement : String)
  | duplicate (rule : String)
  | unknown (rule : String)
deriving DecidableEq, Repr, Inhabited

/-- The wording of an error. -/
def RuleError.message : RuleError → String
  | pattern rule cause => "rule \x60" ++ rule ++ "\x60: bad pattern: " ++ cause.message
  | replacement rule cause => "rule \x60" ++ rule ++ "\x60: bad replacement: " ++ cause.message
  | shapes rule found template =>
    "rule \x60" ++ rule ++ "\x60: " ++ found ++ " pattern cannot be replaced by " ++ template
  | duplicate rule => "duplicate rule \x60" ++ rule ++ "\x60"
  | unknown rule => "unknown rule \x60" ++ rule ++ "\x60"

namespace Rule

/-- The rule of a pattern and a template of one shape. -/
def ofPatterns (name : String) (pattern replacement : Pattern) : Except RuleError Rule :=
  if h : pattern.isExpr = replacement.isExpr then .ok { name, pattern, replacement, agree := h }
  else .error (.shapes name pattern.kindName replacement.kindName)

/-- Compiles a rule as it is written; the pattern is compiled before the replacement. -/
def ofSpec (spec : RuleSpec) : Except RuleError Rule :=
  match Pattern.compile spec.pattern with
  | .error cause => .error (.pattern spec.name cause)
  | .ok pattern =>
    match Pattern.compile spec.replacement with
    | .error cause => .error (.replacement spec.name cause)
    | .ok replacement => ofPatterns spec.name pattern replacement

/-- The number of statements that a rule for statement lists spans. -/
def window? (r : Rule) : Option Nat :=
  match r.pattern with
  | .stmt (.sequence inner) => some inner.statements.length
  | _ => none

/-- What a rule for single statements makes of a statement that it matches. -/
def applyToStmt? (r : Rule) (options : MatchOptions) (s : Stmt) : Option (Except FillError Stmt) :=
  match r.pattern, r.replacement with
  | .stmt (.sequence _), _ => none
  | .stmt pattern, .stmt template => do
    let env ← Pattern.matchTree options pattern s
    return Pattern.fillTree env template
  | _, _ => none

/-- What a rule for statement lists makes of statements that it matches. -/
def applyToList? (r : Rule) (options : MatchOptions) (ss : List Stmt) : Option (Except FillError Stmt) :=
  match r.pattern, r.replacement with
  | .stmt (.sequence patterns), .stmt template => do
    let env ← Pattern.matchList options patterns.statements ss
    return Pattern.fillTree env template
  | _, _ => none

/-- What a rule for expressions makes of an expression that it matches. -/
def applyToExpr? (r : Rule) (options : MatchOptions) (e : Expr) : Option (Except FillError Expr) :=
  match r.pattern, r.replacement with
  | .expr pattern, .expr template => do
    let env ← Pattern.matchTree options pattern e
    return Pattern.fillTree env template
  | _, _ => none

end Rule

end Unminify
