import Unminify.Scope.Declared

/-!
# Scope analysis

Builds the scope graph of a program. Every scope declares its bindings when it is entered, before
anything in it is walked: variables and parameters belong to the nearest function or to the program;
`let`, `const`, classes and functions to the statement list around them. References are then resolved
against the full set of declarations, which is what hoisting amounts to.

Outside strict code a function declared in a nested block belongs to the function around the block,
unless a `let`, `const` or class of the same name lives there.
-/

namespace Unminify.Scope

/-- Where an analysis stands. -/
structure State where
  graph : ScopeGraph := .empty
  current : ScopeId := ScopeGraph.root
  strict : Bool := false
  /-- Positions of the names of block functions that the function around them has declared. -/
  hoisted : Std.TreeSet Nat := {}
deriving Inhabited

abbrev Analysis := StateM State

namespace Analysis

/-- Changes the graph. -/
def modifyGraph (f : ScopeGraph → ScopeGraph) : Analysis Unit :=
  modify fun s => { s with graph := f s.graph }

/-- Runs an analysis in a new scope inside the current one. -/
def within (kind : ScopeKind) (inner : Analysis Unit) : Analysis Unit := do
  let outer := (← get).current
  modify fun s => { s with
    graph := { s.graph with scopes := s.graph.scopes.push { kind, parent := some s.current } }
    current := s.graph.scopes.size }
  inner
  modify ({ · with current := outer })

/-- Runs an analysis in code that may be strict, and restores strictness after it. -/
def withStrictness (strict : Bool) (inner : Analysis Unit) : Analysis Unit := do
  let outer := (← get).strict
  modify ({ · with strict })
  inner
  modify ({ · with strict := outer })

/-- The binding of a name in the current scope. -/
def inCurrent? (name : String) : Analysis (Option BindingId) := do
  let s ← get
  return s.graph.scopes[s.current]?.bind (s.graph.findIn · name)

/-- A new binding of a name in the current scope. -/
def bind (name : String) (kind : BindingKind) : Analysis BindingId := do
  let s ← get
  let b := s.graph.bindings.size
  modifyGraph fun g => { g with
    bindings := g.bindings.push { name, declaredName := name, kind, scope := s.current }
    scopes := g.scopes.modify s.current fun scope => { scope with bindings := scope.bindings.push b } }
  return b

/-- Declares an identifier in the current scope. A name that is bound there already gains a
declaration. Holes declare nothing. -/
def declare (kind : BindingKind) (ident : Name) : Analysis Unit := do
  match ident with
  | .ident name id =>
    let b ← match ← inCurrent? name with
      | some b => pure b
      | none => bind name kind
    match id with
    | some id =>
      modifyGraph fun g => { g with
        bindings := g.bindings.modify b fun binding =>
          { binding with declarations := binding.declarations.push id }
        occurrences := g.occurrences.insert id b }
    | none => pure ()
  | .nameHole _ => pure ()

/-- Resolves an identifier that refers to a binding, or records its name as a global one. -/
def reference (ident : Name) : Analysis Unit := do
  match ident with
  | .ident name id =>
    let s ← get
    match s.graph.lookup s.current name with
    | some b =>
      match id with
      | some id =>
        modifyGraph fun g => { g with
          bindings := g.bindings.modify b fun binding =>
            { binding with references := binding.references.push { id, scope := s.current } }
          occurrences := g.occurrences.insert id b }
      | none => pure ()
    | none => modifyGraph fun g => { g with globals := g.globals.insert name }
  | .nameHole _ => pure ()

/-- Declares identifiers in order. -/
def declareAll (kind : BindingKind) (idents : List Name) : Analysis Unit :=
  idents.forM (declare kind)

/-- Declares the names that belong to the phrase itself, apart from block functions that the function
around it has declared already. -/
def declareLexical {c : Category} (t : Tree c) : Analysis Unit :=
  t.lexicalNames.forM fun (ident, kind) => do
    let hoisted := (← get).hoisted
    if kind = .function && ident.nameId?.any hoisted.contains then pure ()
    else declare kind ident

/-- Declares a block function in the current scope, unless a `let`, `const` or class there has its
name. -/
def hoistBlockFunction (ident : Name) : Analysis Unit := do
  match ident with
  | .ident name id =>
    let s ← get
    let blocks (b : BindingId) : Bool :=
      s.graph.bindings[b]?.any fun binding =>
        binding.name == name && [.lexical, .constant, .classDef].contains binding.kind
    if s.graph.scopes[s.current]?.any (·.bindings.any blocks) then pure ()
    else
      declare .function ident
      modify fun s => { s with hoisted := id.toList.foldl (·.insert ·) s.hoisted }
  | .nameHole _ => pure ()

/-- Declares what a body brings into the current scope: its variables, its own names and, outside
strict code, the functions of its nested blocks. -/
def declareBody (body : Block) : Analysis Unit := do
  declareAll .var body.hoistedVars
  declareLexical body
  if !(← get).strict then (body.blockFunctions false).forM hoistBlockFunction

/-- A function with given parameters and body, inside its own scope. -/
def inFunction (params : Tree (.list .binder)) (body : Block) (inner : Analysis Unit) :
    Analysis Unit := do
  withStrictness ((← get).strict || body.isStrict) do
    declareAll .param params.boundNames
    declareBody body
    inner

/-- A statement list with a scope of its own. -/
def inBlock (body : Block) (inner : Analysis Unit) : Analysis Unit :=
  within .block do
    declareLexical body
    inner

/-- The members of a class, which are strict code. The name is declared if it is given. -/
def inClass (name : Option Name) (inner : Analysis Unit) : Analysis Unit :=
  within .classBody <| withStrictness true do
    name.toList.forM (declare .classDef)
    inner

/-- Walks a phrase whose scope has made its declarations: opens the scopes inside it and resolves
references. -/
def resolve : {c : Category} → Tree c → Analysis Unit
  | _, .identExpr name => reference name
  | _, .template _ substitutions => resolve substitutions
  | _, .tagged _ tag substitutions => do
    resolve tag
    resolve substitutions
  | _, .array elements => resolve elements
  | _, .object properties => resolve properties
  | _, .functionExpr function =>
    within .function do
      function.definedName.toList.forM (declare .function)
      resolve function
  | _, .arrow _ params body =>
    within .function <| inFunction params body.arrowBlock do
      resolve params
      resolve body
  | _, .classExpr (.classDef name heritage members) => do
    resolve heritage
    inClass name.toOption (resolve members)
  | _, .unary _ arg => resolve arg
  | _, .update _ _ arg => resolve arg
  | _, .binary _ left right => do
    resolve left
    resolve right
  | _, .assign _ target value => do
    resolve target
    resolve value
  | _, .conditional test consequent alternate => do
    resolve test
    resolve consequent
    resolve alternate
  | _, .call _ callee args => do
    resolve callee
    resolve args
  | _, .new callee args => do
    resolve callee
    resolve args
  | _, .access computed _ object property => do
    resolve object
    if computed then resolve property
  | _, .comma parts => resolve parts
  | _, .spread arg => resolve arg
  | _, .await arg => resolve arg
  | _, .yield _ arg => resolve arg
  | _, .arrayBinder elements => resolve elements
  | _, .objectBinder properties => resolve properties
  | _, .defaultBinder target value => do
    resolve target
    resolve value
  | _, .restBinder target => resolve target
  | _, .keyedBinder key value => do
    resolve key
    resolve value
  | _, .shortBinder _ value => resolve value
  | _, .restProp target => resolve target
  | _, .computedKey expr => resolve expr
  | _, .keyed key value => do
    resolve key
    resolve value
  | _, .shorthand name => reference name
  | _, .methodProp _ key function => do
    resolve key
    within .function (resolve function)
  | _, .spreadProp arg => resolve arg
  | _, .function _ _ _ params body =>
    inFunction params body do
      resolve params
      resolve body
  | _, .exprBody value => resolve value
  | _, .blockBody body => resolve body
  | _, .method _ _ key function => do
    resolve key
    within .function (resolve function)
  | _, .field _ key value => do
    resolve key
    resolve value
  | _, .staticBlock body => within .function <| inFunction .nil body (resolve body)
  | _, .varDecl _ declarators => resolve declarators
  | _, .declarator target init => do
    resolve target
    resolve init
  | _, .declHead decl => resolve decl
  | _, .exprHead expr => resolve expr
  | _, .switchCase test body => do
    resolve test
    resolve body
  | _, .handler param body =>
    within .catchClause do
      declareAll .catchParam param.boundNames
      resolve param
      inBlock body (resolve body)
  | _, .exprStmt expr => resolve expr
  | _, .varStmt decl => resolve decl
  | _, .functionStmt function => within .function (resolve function)
  | _, .classStmt (.classDef _ heritage members) => do
    resolve heritage
    inClass none (resolve members)
  | _, .blockStmt body => inBlock body (resolve body)
  | _, .ifStmt test consequent alternate => do
    resolve test
    resolve consequent
    resolve alternate
  | _, .forStmt init test update body =>
    within .loopHead do
      declareLexical init
      resolve init
      resolve test
      resolve update
      resolve body
  | _, .forIn left right body =>
    within .loopHead do
      declareLexical left
      resolve left
      resolve right
      resolve body
  | _, .forOf _ left right body =>
    within .loopHead do
      declareLexical left
      resolve left
      resolve right
      resolve body
  | _, .whileStmt test body => do
    resolve test
    resolve body
  | _, .doWhile test body => do
    resolve test
    resolve body
  | _, .returnStmt value => resolve value
  | _, .throwStmt value => resolve value
  | _, .labeled _ body => resolve body
  | _, .switchStmt discriminant cases => do
    resolve discriminant
    -- all cases share one scope
    within .block do
      declareLexical cases
      resolve cases
  | _, .tryStmt block handler finalizer => do
    inBlock block (resolve block)
    resolve handler
    if let some body := finalizer.toOption then inBlock body (resolve finalizer)
  | _, .sequence body => resolve body
  | _, .stmts items => resolve items
  | _, .body stmt => resolve stmt
  | _, .cons head tail => do
    resolve head
    resolve tail
  | _, .some value => resolve value
  | _, _ => pure ()

end Analysis

end Unminify.Scope

namespace Unminify

/-- The scope graph of a program. -/
def Program.scopeGraph (p : Program) : ScopeGraph :=
  let analysis : Scope.Analysis Unit := do
    Scope.Analysis.declareBody p.body
    Scope.Analysis.resolve p.body
  (analysis.run { strict := p.body.isStrict }).2.graph

end Unminify
