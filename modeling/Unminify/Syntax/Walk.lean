import Unminify.Syntax.Tree

/-!
# Walks over trees

A walk visits the phrases of a tree from the outside in and rebuilds it. What happens at a phrase is
said by a hook, which is given the phrase and the walk of its children and decides whether to take
that walk, to replace the phrase instead, or to do something before or after it. `descend` is the
walk of the children; `visit` asks the hook at the root first.

Children are visited in the order in which they stand in `Tree`. The property of a dot access is a
name rather than an expression, and is not visited.
-/

namespace Unminify.Tree

/-- What a walk does at each phrase, given the walk of the phrase's children. -/
abbrev Hook (m : Type → Type) := (c : Category) → Tree c → (Unit → m (Tree c)) → m (Tree c)

variable {m : Type → Type} [Monad m]

/-- The walk of a phrase's children, the hook being asked at each of them. -/
def descend (hook : Hook m) : {c : Category} → Tree c → m (Tree c)
  | _, t@(.ident _ _) => pure t
  | _, t@(.nameHole _) => pure t
  | _, .identExpr name => do
    let name ← hook _ name fun _ => descend hook name
    return .identExpr name
  | _, t@(.literal _) => pure t
  | _, t@.this => pure t
  | _, t@.super => pure t
  | _, .template chunks substitutions => do
    let substitutions ← hook _ substitutions fun _ => descend hook substitutions
    return .template chunks substitutions
  | _, .tagged chunks tag substitutions => do
    let tag ← hook _ tag fun _ => descend hook tag
    let substitutions ← hook _ substitutions fun _ => descend hook substitutions
    return .tagged chunks tag substitutions
  | _, .array elements => do
    let elements ← hook _ elements fun _ => descend hook elements
    return .array elements
  | _, .object properties => do
    let properties ← hook _ properties fun _ => descend hook properties
    return .object properties
  | _, .functionExpr fn => do
    let fn ← hook _ fn fun _ => descend hook fn
    return .functionExpr fn
  | _, .arrow isAsync params inner => do
    let params ← hook _ params fun _ => descend hook params
    let inner ← hook _ inner fun _ => descend hook inner
    return .arrow isAsync params inner
  | _, .classExpr definition => do
    let definition ← hook _ definition fun _ => descend hook definition
    return .classExpr definition
  | _, .unary op arg => do
    let arg ← hook _ arg fun _ => descend hook arg
    return .unary op arg
  | _, .update op before arg => do
    let arg ← hook _ arg fun _ => descend hook arg
    return .update op before arg
  | _, .binary op left right => do
    let left ← hook _ left fun _ => descend hook left
    let right ← hook _ right fun _ => descend hook right
    return .binary op left right
  | _, .assign op target value => do
    let target ← hook _ target fun _ => descend hook target
    let value ← hook _ value fun _ => descend hook value
    return .assign op target value
  | _, .conditional test consequent alternate => do
    let test ← hook _ test fun _ => descend hook test
    let consequent ← hook _ consequent fun _ => descend hook consequent
    let alternate ← hook _ alternate fun _ => descend hook alternate
    return .conditional test consequent alternate
  | _, .call optional callee args => do
    let callee ← hook _ callee fun _ => descend hook callee
    let args ← hook _ args fun _ => descend hook args
    return .call optional callee args
  | _, .new callee args => do
    let callee ← hook _ callee fun _ => descend hook callee
    let args ← hook _ args fun _ => descend hook args
    return .new callee args
  | _, .access computed optional target property => do
    let target ← hook _ target fun _ => descend hook target
    let property ←
      if computed then hook _ property fun _ => descend hook property else pure property
    return .access computed optional target property
  | _, .comma parts => do
    let parts ← hook _ parts fun _ => descend hook parts
    return .comma parts
  | _, .spread arg => do
    let arg ← hook _ arg fun _ => descend hook arg
    return .spread arg
  | _, .await arg => do
    let arg ← hook _ arg fun _ => descend hook arg
    return .await arg
  | _, .yield delegate arg => do
    let arg ← hook _ arg fun _ => descend hook arg
    return .yield delegate arg
  | _, t@(.exprHole _ _) => pure t
  | _, .nameBinder name => do
    let name ← hook _ name fun _ => descend hook name
    return .nameBinder name
  | _, .arrayBinder elements => do
    let elements ← hook _ elements fun _ => descend hook elements
    return .arrayBinder elements
  | _, .objectBinder properties => do
    let properties ← hook _ properties fun _ => descend hook properties
    return .objectBinder properties
  | _, .defaultBinder target value => do
    let target ← hook _ target fun _ => descend hook target
    let value ← hook _ value fun _ => descend hook value
    return .defaultBinder target value
  | _, .restBinder target => do
    let target ← hook _ target fun _ => descend hook target
    return .restBinder target
  | _, .keyedBinder key value => do
    let key ← hook _ key fun _ => descend hook key
    let value ← hook _ value fun _ => descend hook value
    return .keyedBinder key value
  | _, .shortBinder name value => do
    let name ← hook _ name fun _ => descend hook name
    let value ← hook _ value fun _ => descend hook value
    return .shortBinder name value
  | _, .restProp target => do
    let target ← hook _ target fun _ => descend hook target
    return .restProp target
  | _, t@(.nameKey _) => pure t
  | _, t@(.stringKey _) => pure t
  | _, t@(.numberKey _) => pure t
  | _, .computedKey expr => do
    let expr ← hook _ expr fun _ => descend hook expr
    return .computedKey expr
  | _, .keyed key value => do
    let key ← hook _ key fun _ => descend hook key
    let value ← hook _ value fun _ => descend hook value
    return .keyed key value
  | _, .shorthand name => do
    let name ← hook _ name fun _ => descend hook name
    return .shorthand name
  | _, .methodProp kind key fn => do
    let key ← hook _ key fun _ => descend hook key
    let fn ← hook _ fn fun _ => descend hook fn
    return .methodProp kind key fn
  | _, .spreadProp arg => do
    let arg ← hook _ arg fun _ => descend hook arg
    return .spreadProp arg
  | _, .function isAsync isGenerator name params inner => do
    let name ← hook _ name fun _ => descend hook name
    let params ← hook _ params fun _ => descend hook params
    let inner ← hook _ inner fun _ => descend hook inner
    return .function isAsync isGenerator name params inner
  | _, .exprBody value => do
    let value ← hook _ value fun _ => descend hook value
    return .exprBody value
  | _, .blockBody inner => do
    let inner ← hook _ inner fun _ => descend hook inner
    return .blockBody inner
  | _, .classDef name heritage members => do
    let name ← hook _ name fun _ => descend hook name
    let heritage ← hook _ heritage fun _ => descend hook heritage
    let members ← hook _ members fun _ => descend hook members
    return .classDef name heritage members
  | _, .method kind isStatic key fn => do
    let key ← hook _ key fun _ => descend hook key
    let fn ← hook _ fn fun _ => descend hook fn
    return .method kind isStatic key fn
  | _, .field isStatic key value => do
    let key ← hook _ key fun _ => descend hook key
    let value ← hook _ value fun _ => descend hook value
    return .field isStatic key value
  | _, .staticBlock inner => do
    let inner ← hook _ inner fun _ => descend hook inner
    return .staticBlock inner
  | _, .varDecl kind declarators => do
    let declarators ← hook _ declarators fun _ => descend hook declarators
    return .varDecl kind declarators
  | _, .declarator target init => do
    let target ← hook _ target fun _ => descend hook target
    let init ← hook _ init fun _ => descend hook init
    return .declarator target init
  | _, .declHead decl => do
    let decl ← hook _ decl fun _ => descend hook decl
    return .declHead decl
  | _, .exprHead expr => do
    let expr ← hook _ expr fun _ => descend hook expr
    return .exprHead expr
  | _, .switchCase test inner => do
    let test ← hook _ test fun _ => descend hook test
    let inner ← hook _ inner fun _ => descend hook inner
    return .switchCase test inner
  | _, .handler param inner => do
    let param ← hook _ param fun _ => descend hook param
    let inner ← hook _ inner fun _ => descend hook inner
    return .handler param inner
  | _, .exprStmt expr => do
    let expr ← hook _ expr fun _ => descend hook expr
    return .exprStmt expr
  | _, .varStmt decl => do
    let decl ← hook _ decl fun _ => descend hook decl
    return .varStmt decl
  | _, .functionStmt fn => do
    let fn ← hook _ fn fun _ => descend hook fn
    return .functionStmt fn
  | _, .classStmt definition => do
    let definition ← hook _ definition fun _ => descend hook definition
    return .classStmt definition
  | _, .blockStmt inner => do
    let inner ← hook _ inner fun _ => descend hook inner
    return .blockStmt inner
  | _, t@.emptyStmt => pure t
  | _, .ifStmt test consequent alternate => do
    let test ← hook _ test fun _ => descend hook test
    let consequent ← hook _ consequent fun _ => descend hook consequent
    let alternate ← hook _ alternate fun _ => descend hook alternate
    return .ifStmt test consequent alternate
  | _, .forStmt init test step inner => do
    let init ← hook _ init fun _ => descend hook init
    let test ← hook _ test fun _ => descend hook test
    let step ← hook _ step fun _ => descend hook step
    let inner ← hook _ inner fun _ => descend hook inner
    return .forStmt init test step inner
  | _, .forIn left right inner => do
    let left ← hook _ left fun _ => descend hook left
    let right ← hook _ right fun _ => descend hook right
    let inner ← hook _ inner fun _ => descend hook inner
    return .forIn left right inner
  | _, .forOf isAwait left right inner => do
    let left ← hook _ left fun _ => descend hook left
    let right ← hook _ right fun _ => descend hook right
    let inner ← hook _ inner fun _ => descend hook inner
    return .forOf isAwait left right inner
  | _, .whileStmt test inner => do
    let test ← hook _ test fun _ => descend hook test
    let inner ← hook _ inner fun _ => descend hook inner
    return .whileStmt test inner
  | _, .doWhile test inner => do
    let test ← hook _ test fun _ => descend hook test
    let inner ← hook _ inner fun _ => descend hook inner
    return .doWhile test inner
  | _, .returnStmt value => do
    let value ← hook _ value fun _ => descend hook value
    return .returnStmt value
  | _, .throwStmt value => do
    let value ← hook _ value fun _ => descend hook value
    return .throwStmt value
  | _, t@(.breakStmt _) => pure t
  | _, t@(.continueStmt _) => pure t
  | _, .labeled label inner => do
    let inner ← hook _ inner fun _ => descend hook inner
    return .labeled label inner
  | _, .switchStmt discriminant cases => do
    let discriminant ← hook _ discriminant fun _ => descend hook discriminant
    let cases ← hook _ cases fun _ => descend hook cases
    return .switchStmt discriminant cases
  | _, .tryStmt block caught finalizer => do
    let block ← hook _ block fun _ => descend hook block
    let caught ← hook _ caught fun _ => descend hook caught
    let finalizer ← hook _ finalizer fun _ => descend hook finalizer
    return .tryStmt block caught finalizer
  | _, t@.debugger => pure t
  | _, t@(.comment _) => pure t
  | _, .sequence inner => do
    let inner ← hook _ inner fun _ => descend hook inner
    return .sequence inner
  | _, t@(.stmtHole _ _) => pure t
  | _, .stmts items => do
    let items ← hook _ items fun _ => descend hook items
    return .stmts items
  | _, .body stmt => do
    let stmt ← hook _ stmt fun _ => descend hook stmt
    return .body stmt
  | _, t@.nil => pure t
  | _, .cons head tail => do
    let head ← hook _ head fun _ => descend hook head
    let tail ← hook _ tail fun _ => descend hook tail
    return .cons head tail
  | _, t@.none => pure t
  | _, .some value => do
    let value ← hook _ value fun _ => descend hook value
    return .some value
/-- The walk of a phrase, the hook being asked at the phrase itself as well. -/
def visit (hook : Hook m) {c : Category} (t : Tree c) : m (Tree c) :=
  hook c t fun _ => descend hook t

/-- One step of a walk: `f` is applied to each visited child of a phrase. -/
def mapChildren (f : (c : Category) → Tree c → m (Tree c)) {c : Category} (t : Tree c) : m (Tree c) :=
  descend (fun c t _ => f c t) t

/-- The hook that changes nothing. -/
def passThrough : Hook m := fun _ _ walk => walk ()

/-- The number of phrases that a walk visits. -/
def size {c : Category} (t : Tree c) : Nat :=
  let tick : Hook (StateM Nat) := fun _ _ walk => do
    modify (· + 1)
    walk ()
  ((t.visit tick).run 0).2

end Unminify.Tree
