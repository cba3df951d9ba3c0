import Unminify.Printer.Print
import Unminify.Syntax.Kind
import Unminify.Text.Blank

/-!
# Patterns

A pattern is an expression or a statement with holes; several statements are held in a sequence. The
same type serves for templates, from which replacements are made.
-/

namespace Unminify

/-- A pattern or a template. -/
inductive Pattern
  | expr (tree : Expr)
  /-- One statement, or several in a sequence. -/
  | stmt (tree : Stmt)

namespace Pattern

/-- Whether a pattern is an expression. -/
def isExpr : Pattern → Bool
  | expr _ => true
  | stmt _ => false

/-- What a pattern is called in messages. -/
def kindName : Pattern → String
  | expr _ => "expression"
  | stmt (.sequence _) => "statement list"
  | stmt _ => "statement"

/-- The text of a pattern. -/
def text : Pattern → String
  | expr e => e.exprText
  | stmt s => Text.trimEnd s.stmtText

end Pattern

/-- Settings of the matcher. -/
structure MatchOptions where
  /-- The kinds of statement that a hole for compound statements accepts. -/
  compoundKinds : List StmtKind := StmtKind.compound
deriving DecidableEq, Repr, Inhabited

end Unminify
