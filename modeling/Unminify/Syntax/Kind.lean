import Unminify.Syntax.Tree

/-!
# Kinds of statement

`StmtKind` forgets everything about a statement but its form. Kinds have names, used in settings and
listings, and `StmtKind.compound` lists the kinds that are written across several lines.
-/

namespace Unminify

/-- The forms of statement. -/
inductive StmtKind
  | expr | var | function | classDecl | block | empty | ifElse | forLoop | forIn | forOf | whileLoop
  | doWhile | ret | throw | break | continue | labeled | switch | try | debugger | comment | sequence
  | hole
deriving DecidableEq, Repr, Inhabited

namespace StmtKind

/-- Every kind, in the order of declaration. -/
def all : List StmtKind :=
  [expr, var, function, classDecl, block, empty, ifElse, forLoop, forIn, forOf, whileLoop, doWhile,
    ret, throw, StmtKind.break, StmtKind.continue, labeled, switch, StmtKind.try, debugger, comment,
    sequence, hole]

/-- The name of a kind. -/
def name : StmtKind → String
  | expr => "expr"
  | var => "var"
  | function => "function"
  | classDecl => "class"
  | block => "block"
  | empty => "empty"
  | ifElse => "if"
  | forLoop => "for"
  | forIn => "for-in"
  | forOf => "for-of"
  | whileLoop => "while"
  | doWhile => "do-while"
  | ret => "return"
  | throw => "throw"
  | .break => "break"
  | .continue => "continue"
  | labeled => "labeled"
  | switch => "switch"
  | .try => "try"
  | debugger => "debugger"
  | comment => "comment"
  | sequence => "sequence"
  | hole => "placeholder"

/-- The kind with a given name. -/
def ofName? (s : String) : Option StmtKind := all.find? (·.name == s)

theorem ofName?_name (k : StmtKind) : ofName? k.name = some k := by cases k <;> decide

/-- Kinds that are written across several lines: compound and control-flow statements. -/
def compound : List StmtKind :=
  [function, classDecl, block, ifElse, forLoop, forIn, forOf, whileLoop, doWhile, labeled, switch,
    StmtKind.try, sequence]

end StmtKind

/-- The kind of a statement. -/
def Tree.kind (s : Stmt) : StmtKind :=
  match s with
  | .exprStmt _ => .expr
  | .varStmt _ => .var
  | .functionStmt _ => .function
  | .classStmt _ => .classDecl
  | .blockStmt _ => .block
  | .emptyStmt => .empty
  | .ifStmt _ _ _ => .ifElse
  | .forStmt _ _ _ _ => .forLoop
  | .forIn _ _ _ => .forIn
  | .forOf _ _ _ _ => .forOf
  | .whileStmt _ _ => .whileLoop
  | .doWhile _ _ => .doWhile
  | .returnStmt _ => .ret
  | .throwStmt _ => .throw
  | .breakStmt _ => .break
  | .continueStmt _ => .continue
  | .labeled _ _ => .labeled
  | .switchStmt _ _ => .switch
  | .tryStmt _ _ _ => .try
  | .debugger => .debugger
  | .comment _ => .comment
  | .sequence _ => .sequence
  | .stmtHole _ _ => .hole

end Unminify
