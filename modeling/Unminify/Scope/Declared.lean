import Unminify.Scope.Graph

/-!
# Declared names

What the phrases of a program declare, collected without a graph: the names a pattern binds, the
variables that a body hoists, the functions in its nested blocks, and the names that belong to a
statement list itself.
-/

namespace Unminify.Tree

/-- The names that patterns and declarations bind, in order. -/
def boundNames : {c : Category} → Tree c → List Name
  | _, .nameBinder name => [name]
  | _, .arrayBinder elements => boundNames elements
  | _, .objectBinder properties => boundNames properties
  | _, .defaultBinder target _ => boundNames target
  | _, .restBinder target => boundNames target
  | _, .keyedBinder _ value => boundNames value
  | _, .shortBinder name _ => [name]
  | _, .restProp target => boundNames target
  | _, .varDecl _ declarators => boundNames declarators
  | _, .declarator target _ => boundNames target
  | _, .cons head tail => boundNames head ++ boundNames tail
  | _, .some value => boundNames value
  | _, _ => []

/-- The names of `var` declarations reachable without entering a function. -/
def hoistedVars : {c : Category} → Tree c → List Name
  | _, .varDecl kind declarators => if kind = .var then boundNames declarators else []
  | _, .declHead decl => hoistedVars decl
  | _, .switchCase _ inner => hoistedVars inner
  | _, .handler _ inner => hoistedVars inner
  | _, .varStmt decl => hoistedVars decl
  | _, .blockStmt inner => hoistedVars inner
  | _, .ifStmt _ consequent alternate => hoistedVars consequent ++ hoistedVars alternate
  | _, .forStmt init _ _ inner => hoistedVars init ++ hoistedVars inner
  | _, .forIn left _ inner => hoistedVars left ++ hoistedVars inner
  | _, .forOf _ left _ inner => hoistedVars left ++ hoistedVars inner
  | _, .whileStmt _ inner => hoistedVars inner
  | _, .doWhile _ inner => hoistedVars inner
  | _, .labeled _ inner => hoistedVars inner
  | _, .switchStmt _ cases => hoistedVars cases
  | _, .tryStmt inner caught finalizer => hoistedVars inner ++ hoistedVars caught ++ hoistedVars finalizer
  | _, .sequence inner => hoistedVars inner
  | _, .stmts items => hoistedVars items
  | _, .body stmt => hoistedVars stmt
  | _, .cons head tail => hoistedVars head ++ hoistedVars tail
  | _, .some value => hoistedVars value
  | _, _ => []

/-- The name of a function or class definition. -/
def definedName : {c : Category} → Tree c → Option Name
  | _, .function _ _ name _ _ => name.toOption
  | _, .classDef name _ _ => name.toOption
  | _, _ => Option.none

/-- The names of functions declared in nested blocks, reachable without entering a function. With
`nested` the phrase itself stands in a nested block. -/
def blockFunctions (nested : Bool) : {c : Category} → Tree c → List Name
  | _, .functionStmt fn => if nested then fn.definedName.toList else []
  | _, .switchCase _ inner => blockFunctions true inner
  | _, .handler _ inner => blockFunctions true inner
  | _, .blockStmt inner => blockFunctions true inner
  | _, .ifStmt _ consequent alternate => blockFunctions true consequent ++ blockFunctions true alternate
  | _, .forStmt _ _ _ inner => blockFunctions true inner
  | _, .forIn _ _ inner => blockFunctions true inner
  | _, .forOf _ _ _ inner => blockFunctions true inner
  | _, .whileStmt _ inner => blockFunctions true inner
  | _, .doWhile _ inner => blockFunctions true inner
  | _, .labeled _ inner => blockFunctions true inner
  | _, .switchStmt _ cases => blockFunctions true cases
  | _, .tryStmt inner caught finalizer =>
    blockFunctions true inner ++ blockFunctions true caught ++ blockFunctions true finalizer
  | _, .sequence inner => blockFunctions nested inner
  | _, .stmts items => blockFunctions nested items
  | _, .body stmt => blockFunctions nested stmt
  | _, .cons head tail => blockFunctions nested head ++ blockFunctions nested tail
  | _, .some value => blockFunctions nested value
  | _, _ => []

/-- The names that belong to a statement list or loop head itself, with what declares them. -/
def lexicalNames : {c : Category} → Tree c → List (Name × BindingKind)
  | _, .varDecl kind declarators =>
    match kind with
    | .var => []
    | .lexical => (boundNames declarators).map (·, .lexical)
    | .constant => (boundNames declarators).map (·, .constant)
  | _, .declHead decl => lexicalNames decl
  | _, .varStmt decl => lexicalNames decl
  | _, .functionStmt fn => fn.definedName.toList.map (·, .function)
  | _, .classStmt definition => definition.definedName.toList.map (·, .classDef)
  | _, .switchCase _ inner => lexicalNames inner
  | _, .sequence inner => lexicalNames inner
  | _, .stmts items => lexicalNames items
  | _, .cons head tail => lexicalNames head ++ lexicalNames tail
  | _, .some value => lexicalNames value
  | _, _ => []

/-- Whether a body starts with directives among which is the one for strict code. Comments may stand
between them. -/
def isStrict (b : Block) : Bool :=
  let isComment : Stmt → Bool
    | .comment _ => true
    | _ => false
  let directive? : Stmt → Option String
    | .exprStmt (.literal (.string text)) => Option.some text
    | _ => Option.none
  ((b.statements.filter (!isComment ·)).map directive?).takeWhile (·.isSome)
    |>.contains (Option.some "use strict")

/-- The statements of an arrow function's body. -/
def arrowBlock : Tree .arrowBody → Block
  | .blockBody inner => inner
  | .exprBody _ => .stmts .nil

end Unminify.Tree
