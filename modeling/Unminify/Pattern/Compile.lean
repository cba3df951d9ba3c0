import Unminify.Grammar.Script
import Unminify.Pattern.Basic
import Unminify.Pattern.Hole
import Unminify.Syntax.Walk

/-!
# Compiling patterns

Turns the text of a pattern into a tree with holes. The text is ordinary source in which some
identifiers are written for holes:

* `placeholder1` is a hole for a name;
* `statement1;` is a hole for a statement, `statement1.multiLine;` for a compound one;
* `expression1` is a hole for an expression, `expression1.orDeclaration` also for the declaration in
  the head of a loop.

A single expression without a semicolon behind it is an expression pattern. Comments are dropped, and
so are the positions of identifiers.
-/

namespace Unminify

/-- Why a text is no pattern. -/
inductive CompileError
  | unreadable (cause : ReadError)
  | unknownModifier (hole : Hole) (modifier : String)
  /-- A hole stands where its family cannot. -/
  | misplaced (hole : Hole)
  | empty
deriving DecidableEq, Repr, Inhabited

/-- The wording of an error. -/
def CompileError.message : CompileError → String
  | unreadable cause => "pattern does not parse: " ++ cause.message
  | unknownModifier hole modifier => "unknown modifier \x60." ++ modifier ++ "\x60 on \x60" ++ hole.text ++ "\x60"
  | misplaced hole => "\x60" ++ hole.text ++ "\x60 can only stand in statement position"
  | empty => "pattern is empty"

namespace Pattern

/-- The hole of a family that an identifier is written for. -/
def holeNamed? (family : HoleFamily) (ident : Name) : Option Hole := do
  let hole ← Hole.ofText? (← ident.nameText?)
  if hole.family = family then some hole else none

/-- A hole written as an expression: an identifier alone, or with a modifier behind a dot. -/
def holeAccess? (family : HoleFamily) : Expr → Option (Hole × Option String)
  | .identExpr ident => (holeNamed? family ident).map (·, none)
  | .access false false (.identExpr ident) (.literal (.string modifier)) =>
    (holeNamed? family ident).map (·, some modifier)
  | _ => none

/-- The number of a hole of a family and whether it has the family's modifier. -/
def holeWith? (family : HoleFamily) (modifier : String) (e : Expr) :
    Except CompileError (Option (Nat × Bool)) :=
  match holeAccess? family e with
  | some (hole, none) => .ok (some (hole.index, false))
  | some (hole, some found) =>
    if found = modifier then .ok (some (hole.index, true)) else .error (.unknownModifier hole found)
  | none => .ok none

/-- A statement hole written as an expression. -/
def statementHole? : Expr → Except CompileError (Option (Nat × Bool)) := holeWith? .statement "multiLine"

/-- An expression hole. -/
def expressionHole? : Expr → Except CompileError (Option (Nat × Bool)) :=
  holeWith? .expression "orDeclaration"

/-- An identifier of a pattern: a hole for a name, or a name without position. -/
def compileName (ident : Name) : Except CompileError Name :=
  match ident with
  | .ident text _ =>
    match Hole.ofText? text with
    | some hole => if hole.family = .generic then .ok (.nameHole hole.index) else .error (.misplaced hole)
    | none => .ok (.ident text none)
  | .nameHole index => .ok (.nameHole index)

/-- Whether a statement is a comment. -/
def isComment : Stmt → Bool
  | .comment _ => true
  | _ => false

/-- What compiling does at a phrase. -/
def compileHook : Tree.Hook (Except CompileError) := fun c t walk =>
  match c, t with
  | .block, _ => do return Tree.blockOf ((← walk ()).statements.filter (!isComment ·))
  | .body, _ => do
    match ← walk () with
    | .body (.sequence inner) =>
      match inner.statements with
      | [s] => return .body s
      | _ => return .body (.sequence inner)
    | other => return other
  | .stmt, .exprStmt e => do
    match ← statementHole? e with
    | some (index, multiLine) => return .stmtHole index multiLine
    | none => walk ()
  | .expr, e => do
    match ← expressionHole? e with
    | some (index, orDeclaration) => return .exprHole index orDeclaration
    | none =>
      match ← statementHole? e with
      | some (index, _) => throw (.misplaced { family := .statement, index })
      | none => walk ()
  | .name, ident => compileName ident
  | _, _ => walk ()

/-- The statement pattern of some statements. -/
def compileStatements (body : List Stmt) : Except CompileError Pattern := do
  match ← (Tree.blockOf body).visit compileHook with
  | .stmts items =>
    match items.toList with
    | [] => throw .empty
    | [s] => return .stmt s
    | _ => return .stmt (.sequence (.stmts items))

/-- The pattern of a program; `terminated` says that the program's last expression ends in a
semicolon. -/
def ofProgram (p : Program) (terminated : Bool) : Except CompileError Pattern := do
  let body := p.body.statements.filter (!isComment ·)
  match body, terminated with
  | [.exprStmt e], false =>
    match ← statementHole? e with
    | none => return .expr (← e.visit compileHook)
    | some _ => compileStatements body
  | _, _ => compileStatements body

/-- The pattern written as a text. -/
def compile (text : String) : Except CompileError Pattern :=
  match Program.read text with
  | .ok p => ofProgram p (endsInSemicolon text)
  | .error cause => .error (.unreadable cause)

end Pattern

end Unminify
