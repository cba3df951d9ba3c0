import Unminify.Grammar.Semicolon

/-!
# Nonterminals

The grammar is one family of parsers, indexed by nonterminal. The rules are written against an
arbitrary family (`Rules`), so that each group of rules has a module of its own; the family that
satisfies all of them is put together at the end, by recursion on how deep phrases may nest.

A destructuring pattern is read in two ways: as a binding pattern, where it declares names, and as
the target of an assignment, where it is an array or object expression. `Target` holds both readings.
-/

namespace Unminify.Grammar

/-- What surrounds an expression. -/
structure Context where
  /-- A semicolon may be supplied after the expression. -/
  endsStatement : Bool
  /-- An `in` operator would end the expression. -/
  withoutIn : Bool := false
deriving DecidableEq, Repr, Inhabited

/-- Inside brackets. -/
def Context.enclosed : Context := { endsStatement := false }

/-- At the end of a statement. -/
def Context.final : Context := { endsStatement := true }

/-- The two readings of a pattern. -/
structure Target where
  asBinder : Reading (Tree .binder)
  asExpr : Reading Expr

/-- A parsed statement. -/
structure Statement where
  reading : Reading Stmt
  /-- It is an expression statement. -/
  isExpression : Bool := false
  /-- It ends in a written semicolon. -/
  isTerminated : Bool := false
  /-- It is a block. -/
  isBlock : Bool := false

/-- The phrases that other phrases refer to. -/
inductive Nonterminal
  /-- One expression, without top-level commas. -/
  | expression (ctx : Context)
  /-- Expressions with commas between them. -/
  | expressions (ctx : Context)
  /-- Operands joined by operators of at least a given precedence. -/
  | operation (ctx : Context) (least : Nat)
  /-- An operand: an expression without top-level binary operators. -/
  | operand (ctx : Context)
  /-- The target of a declaration or of an assignment. -/
  | pattern
  | statement
  /-- Statements in braces. -/
  | block
  /-- A class from its name on. -/
  | classRest
  /-- A markup element; the result is its form. -/
  | markup

/-- What parsing a phrase yields. -/
@[reducible] def Nonterminal.Result : Nonterminal → Type
  | expression _ | expressions _ | operation _ _ | operand _ => Reading Expr
  | pattern => Target
  | statement => Statement
  | block => Reading Block
  | classRest => Reading (Tree .classDef)
  | markup => String

/-- A family of parsers, one for each nonterminal. -/
abbrev Rules := (n : Nonterminal) → Parser n.Result

/-- Words that are never names. -/
def reserved : List String :=
  ["break", "case", "catch", "class", "const", "continue", "debugger", "default", "delete", "do",
    "else", "extends", "finally", "for", "function", "if", "import", "in", "instanceof", "new",
    "return", "super", "switch", "this", "throw", "try", "typeof", "var", "void", "while", "with"]

/-- Readings of several phrases as the reading of them all; the first error counts. -/
def readAll {α : Type} (rs : List (Reading α)) : Reading (List α) := rs.mapM id

/-- Like `readAll`, with absent elements. -/
def readElements {α : Type} (rs : List (Option (Reading α))) : Reading (List (Option α)) :=
  rs.mapM fun r => match r with
    | some r => some <$> r
    | none => pure none

namespace Parser

/-- A name and its place. -/
def name : Parser (String × Nat) := do
  let start := (← get).next.start
  let text ← accept fun
    | .word text => if reserved.contains text then none else some text
    | _ => none
  return (text, start)

/-- A name as an identifier. -/
def identifier : Parser Name := do
  let (text, start) ← name
  return .ident text (some start)

/-- Items between commas up to a closing mark, which is consumed. Items may be left out; what stands
between two commas, or before a comma, counts even if it is absent. -/
def elements {α : Type} (close : String) (item : Parser α) : Parser (List (Option α)) := do
  let found ← repeatFrom [] fun acc => do
    if ← mark? close then return (acc, false)
    else if ← mark? "," then return (none :: acc, true)
    else
      let x ← item
      if ← mark? "," then return (some x :: acc, true)
      else
        mark close
        return (some x :: acc, false)
  return found.reverse

/-- Items between single commas up to a closing mark, which is consumed. A comma may follow the last
item. -/
def items {α : Type} (close : String) (item : Parser α) : Parser (List α) := do
  let found ← elements close item
  require (found.all (·.isSome))
  return found.filterMap id

end Parser

end Unminify.Grammar
