import Unminify.Grammar.Expression

/-!
# Statements

Statement lists keep comments as statements. A comment between two statements stands where it was
written. A comment inside a statement goes before that statement, unless a list inside the statement
has taken it. Comments that lead an unbraced body stay with the body, which becomes a sequence.

Module statements, `with` and resource declarations are well formed but have no tree.
-/

namespace Unminify.Grammar

open Unminify.Grammar.Parser

/-- Readings of the members of a statement list, in reverse. -/
abbrev Members := List (Reading Stmt)

/-- Comments put on top of the members of a list, which are in reverse. -/
def pushComments (comments : List String) (members : Members) : Members :=
  (comments.map fun text => .ok (.comment text)).reverse ++ members

/-- The statement list of some members in reverse. -/
def blockOfMembers (members : Members) : Reading Block :=
  Tree.blockOf <$> readAll members.reverse

variable (rules : Rules)

/-! ## Lists and bodies -/

/-- A statement put on top of a list's members, above the loose comments found in it. -/
def pushStatement (members : Members) : Parser (Members × Statement) := do
  let (s, loose) ← collectLoose (rules .statement)
  return (s.reading :: pushComments loose members, s)

/-- Statements in braces. -/
def block : Parser (Reading Block) := do
  mark "\x7b"
  let members ← repeatFrom ([] : Members) fun members => do
    let members := pushComments (← takeLead) members
    if ← mark? "\x7d" then return (members, false)
    else
      let (members, _) ← pushStatement rules members
      return (members, true)
  return blockOfMembers members

/-- The statement governed by another one. Comments around it stay with it unless it is a block. -/
def body : Parser (Reading (Tree .body)) := do
  let lead ← takeLead
  let (s, loose) ← collectLoose (rules .statement)
  let comments := lead ++ loose
  if s.isBlock then
    modify fun state => { state with loose := comments.reverse ++ state.loose }
    return .body <$> s.reading
  else if comments.isEmpty then return .body <$> s.reading
  else
    return do
      let stmt ← s.reading
      return .body (.sequence (Tree.blockOf (comments.map .comment ++ [stmt])))

/-- An expression in parentheses. -/
def condition : Parser (Reading Expr) := do
  mark "("
  let e ← rules (.expressions .enclosed)
  mark ")"
  return e

/-! ## Declarations -/

/-- One declared variable with its initial value; says whether it has one. The value is read before
the target. -/
def declarator : Parser (Reading (Tree .declarator) × Bool) := do
  let target ← declaredTarget rules
  if ← mark? "=" then
    let value ← rules (.expression .final)
    return (do
      let value ← value
      return .declarator (← target.asBinder) (.some value), true)
  else return (do return .declarator (← target.asBinder) .none, false)

/-- Declared variables; says whether the last one has a value. -/
def declarators : Parser (Reading (List (Tree .declarator)) × Bool) := do
  let (first, initialized) ← declarator rules
  let (found, initialized) ← repeatFrom ([first], initialized) fun (found, initialized) => do
    if ← mark? "," then
      let (d, initialized) ← declarator rules
      return ((d :: found, initialized), true)
    else return ((found, initialized), false)
  return (readAll found.reverse, initialized)

/-- The keyword of a declaration. The word `let` is a keyword only before something to declare; where
a statement may end (`mayEnd`), a line that ends behind it makes it a name. -/
def declarationKeyword (mayEnd : Bool) : Parser VarKind := do
  match ← peek with
  | .word "var" => advance; return .var
  | .word "const" => advance; return .constant
  | .word "let" =>
    advance
    if mayEnd then require !(← atSemicolon true)
    match ← peek with
    | .mark text => require (text == "[" || text == "\x7b")
    | .word text => require !(reserved.contains text)
    | _ => failure
    return .lexical
  | _ => failure

/-- A variable declaration with its end. -/
def declaration (mayEnd : Bool) : Parser (Reading VarDecl) := do
  let kind ← declarationKeyword mayEnd
  let (found, initialized) ← declarators rules
  discard (semicolon initialized)
  return do return .varDecl kind (.ofList (← found))

/-- A declaration of resources, which has no tree. -/
def resourceDeclaration : Parser (Reading Stmt) := do
  let e ← unsupported "statement type" "using_declaration" do
    discard (word? "await")
    word "using"
    require !(← atSemicolon true)
    let (_, initialized) ← declarators rules
    discard (semicolon initialized)
  return .error e

/-- Whether a named function or a named class starts here, decorators apart. -/
def atDeclaration : Parser Bool :=
  foresees do
    if ← word? "class" then discard name
    else
      if ← word? "async" then require !(← atSemicolon true)
      word "function"
      discard (mark? "*")
      discard name

/-- A named function or a named class as a statement. -/
def namedDeclaration : Parser (Reading Stmt) := do
  Grammar.decorators rules
  require (← atDeclaration)
  if ← word? "class" then return .classStmt <$> (← rules .classRest)
  else return .functionStmt <$> (← keywordFunction rules true)

/-! ## Loops -/

/-- The head of a loop over properties or elements, up to the word that names which. -/
def iterationHead : Parser (Reading (Tree .forHead)) := do
  let declared (kind : Reading VarKind) : Parser (Reading (Tree .forHead)) := do
    let target ← declaredTarget rules
    return do
      let kind ← kind
      let target ← target.asBinder
      return .declHead (.varDecl kind (.ofList [.declarator target .none]))
  let asVar : Parser (Reading (Tree .forHead)) := do
    word "var"
    let head ← declared (.ok .var)
    -- an initial value has no effect
    if ← mark? "=" then leftOut (rules (.expression { endsStatement := false, withoutIn := true }))
    return head
  let asLexical (text : String) (kind : Reading VarKind) : Parser (Reading (Tree .forHead)) := do
    word text
    declared kind
  let asTarget : Parser (Reading (Tree .forHead)) := do
    let target ← simpleTarget rules
    return .exprHead <$> target.asExpr
  let asGrouping : Parser (Reading (Tree .forHead)) := do
    return .exprHead <$> (← condition rules)
  let ended (head : Parser (Reading (Tree .forHead))) : Parser (Reading (Tree .forHead)) := do
    let h ← head
    require ((← atWord "in") || (← atWord "of"))
    return h
  ended asVar <|> ended (asLexical "let" (.ok .lexical)) <|>
    ended (asLexical "const" (.ok .constant)) <|>
    ended (asLexical "using" (.error (.unexpected "var, let or const" "using"))) <|>
    ended asTarget <|> ended asGrouping

/-- A loop over properties or elements. -/
def iteration : Parser (Reading Stmt) := do
  word "for"
  let isAwait ← word? "await"
  mark "("
  let left ← iterationHead rules
  let isOf ← word? "of"
  if !isOf then word "in"
  let right ← rules (.expressions .enclosed)
  mark ")"
  let inner ← body rules
  return do
    let left ← left
    let right ← right
    let inner ← inner
    return if isOf then .forOf isAwait left right inner else .forIn left right inner

/-- An optional clause of a loop head, up to a mark that is consumed. -/
def clause (close : String) : Parser (Reading (Tree (.option .expr))) := do
  if ← mark? close then return .ok .none
  else
    let e ← rules (.expressions .enclosed)
    mark close
    return .some <$> e

/-- A loop with a counter. -/
def counting : Parser (Reading Stmt) := do
  word "for"
  mark "("
  let declared : Parser (Reading (Tree (.option .forHead))) := do
    let d ← declaration rules false
    return (fun d => .some (.declHead d)) <$> d
  let plain : Parser (Reading (Tree (.option .forHead))) := do
    let e ← clause rules ";"
    return (fun e => .ofOption (e.toOption.map .exprHead)) <$> e
  let init ← declared <|> plain
  let test ← clause rules ";"
  let update ← clause rules ")"
  let inner ← body rules
  return .forStmt <$> init <*> test <*> update <*> inner

/-- A loop that tests first. -/
def whileLoop : Parser (Reading Stmt) := do
  word "while"
  let test ← condition rules
  let inner ← body rules
  return .whileStmt <$> test <*> inner

/-- A loop that tests last; its semicolon may be left out. The body is read before the test. -/
def doLoop : Parser (Reading Stmt) := do
  word "do"
  let inner ← body rules
  word "while"
  let test ← condition rules
  discard (perhaps (semicolon false))
  return do
    let inner ← inner
    return .doWhile (← test) inner

/-! ## Branches and jumps -/

/-- A choice between two statements. -/
def ifStatement : Parser (Reading Stmt) := do
  word "if"
  let test ← condition rules
  let consequent ← body rules
  if ← word? "else" then
    let alternate ← body rules
    return do return .ifStmt (← test) (← consequent) (.some (← alternate))
  else return do return .ifStmt (← test) (← consequent) .none

/-- One case of a switch. Its list takes the comments beside its word and before its colon; comments
behind its last statement are left to the switch. -/
def switchCase : Parser (Reading (Tree .switchCase)) := do
  let (test, lead) : Option (Reading Expr) × List String ←
    if ← word? "default" then pure (none, [])
    else
      word "case"
      let lead ← takeLead
      let test ← rules (.expressions .enclosed)
      pure (some test, lead)
  let behind ← takeLead
  mark ":"
  let members ← repeatFrom (pushComments (lead ++ behind) []) fun members => do
    match ← peek with
    | .word "case" | .word "default" | .mark "\x7d" => return (members, false)
    | _ =>
      let (members, _) ← pushStatement rules (pushComments (← takeLead) members)
      return (members, true)
  return do
    let test ← match test with
      | some e => Tree.some <$> e
      | none => pure .none
    return .switchCase test (← blockOfMembers members)

/-- A choice between cases. -/
def switchStatement : Parser (Reading Stmt) := do
  word "switch"
  let discriminant ← condition rules
  mark "\x7b"
  let cases ← repeatFrom ([] : List (Reading (Tree .switchCase))) fun cases => do
    if ← mark? "\x7d" then return (cases, false)
    else
      let c ← switchCase rules
      return (c :: cases, true)
  return do return .switchStmt (← discriminant) (.ofList (← readAll cases.reverse))

/-- A protected block with its handler and finalizer. -/
def tryStatement : Parser (Reading Stmt) := do
  word "try"
  let inner ← rules .block
  let handler : Option (Reading (Tree .handler)) ←
    if ← word? "catch" then
      let param : Option Target ←
        if ← mark? "(" then
          let p ← rules .pattern
          mark ")"
          pure (some p)
        else pure none
      let handled ← rules .block
      pure (some do
        let param ← match param with
          | some p => Tree.some <$> p.asBinder
          | none => pure .none
        return .handler param (← handled))
    else pure none
  let finalizer : Option (Reading Block) ←
    if ← word? "finally" then some <$> rules .block else pure none
  return do
    let inner ← inner
    let handler ← match handler with
      | some h => Tree.some <$> h
      | none => pure .none
    let finalizer ← match finalizer with
      | some f => Tree.some <$> f
      | none => pure .none
    return .tryStmt inner handler finalizer

/-- A return, with a value unless the line ends. -/
def returnStatement : Parser (Reading Stmt) := do
  word "return"
  if (← atSemicolon false) || (← atMark ";") then
    discard (semicolon false)
    return .ok (.returnStmt .none)
  else
    let value ← rules (.expressions .final)
    discard (semicolon true)
    return do return .returnStmt (.some (← value))

/-- A raised value. -/
def throwStatement : Parser (Reading Stmt) := do
  word "throw"
  let value ← rules (.expressions .final)
  discard (semicolon true)
  return .throwStmt <$> value

/-- A jump out of or to the next round of a loop, to a label unless the line ends. -/
def jump (text : String) (make : Option String → Stmt) : Parser (Reading Stmt) := do
  word text
  let label ← if ← atSemicolon false then pure none else perhaps name
  discard (semicolon false)
  return .ok (make (label.map (·.1)))

/-- Whether a label starts here. -/
def atLabel : Parser Bool :=
  foresees do
    discard name
    mark ":"

/-- A labeled statement. -/
def labeledStatement : Parser (Reading Stmt) := do
  let (label, _) ← name
  mark ":"
  let inner ← body rules
  return .labeled label <$> inner

/-! ## Statements without a tree -/

/-- A statement whose object's properties become names. -/
def withStatement : Parser (Reading Stmt) := do
  let e ← unsupported "statement type" "with_statement" do
    word "with"
    discard (condition rules)
    discard (body rules)
  return .error e

/-- The source of a module statement. -/
def fromClause : Parser Unit := do
  word "from"
  moduleName
where
  /-- A module's name, with attributes. -/
  moduleName : Parser Unit := do
    accept fun
      | .string _ _ => some ()
      | _ => none
    if (← atWord "with") || (← atWord "assert") then
      advance
      discard (objectMembers rules)

/-- Names in braces, each perhaps with another name. -/
def moduleNames : Parser Unit := do
  let word : Parser Unit := accept fun
    | .word _ | .string _ _ => some ()
    | _ => none
  mark "\x7b"
  discard (elements "\x7d" do
    word
    if ← word? "as" then word)

/-- All names of a module, perhaps under one name. -/
def moduleStar : Parser Unit := do
  mark "*"
  if ← word? "as" then
    accept fun
      | .word _ | .string _ _ => some ()
      | _ => none

/-- An import of a module. -/
def importStatement : Parser (Reading Stmt) := do
  let e ← unsupported "module statement" "import_statement" do
    word "import"
    let several : Parser Unit := moduleNames <|> moduleStar
    let clause : Parser Unit := do
      several <|> do
        discard name
        if ← mark? "," then several
      fromClause rules
    clause <|> fromClause.moduleName rules
    discard (semicolon false)
  return .error e

/-- An export from a module. -/
def exportStatement : Parser (Reading Stmt) := do
  let e ← unsupported "module statement" "export_statement" do
    decorators rules
    word "export"
    let names : Parser Unit := do
      let isStar ← atMark "*"
      moduleNames <|> moduleStar
      if isStar || (← atWord "from") then fromClause rules
      discard (semicolon false)
    let declared : Parser Unit := do
      discard (namedDeclaration rules) <|> discard (declaration rules true)
    let asDefault : Parser Unit := do
      word "default"
      discard (namedDeclaration rules) <|> do
        discard (rules (.expression .final))
        discard (semicolon true)
    names <|> declared <|> asDefault
  return .error e

/-- A comment in the manner of markup, up to the end of its line. -/
def markupComment : Parser (Reading Stmt) := do
  let s := (← get).next
  require ((← Markup.ahead "<!--") || (← Markup.ahead "-->"))
  let isText (c : Char) : Bool := !Character.endsLine c
  resumeAt (s.start + Character.byteLength (s.here.takeWhile isText)) (s.here.dropWhile isText)
  return .error (.unsupported "statement type" "html_comment" (← snippetFrom s.start s.here))

/-! ## All statements -/

/-- An expression as a statement. -/
def expressionStatement : Parser Statement := do
  let e ← rules (.expressions .final)
  let isTerminated ← semicolon true
  return { reading := .exprStmt <$> e, isExpression := true, isTerminated }

/-- A statement that starts with a brace: a block, or an object literal where one can be read. -/
def bracedStatement : Parser Statement :=
  let asObject : Parser Statement := do
    require (← startsObject rules)
    expressionStatement rules
  let asBlock : Parser Statement := do
    let inner ← rules .block
    return { reading := .blockStmt <$> inner, isBlock := true }
  asObject <|> asBlock

/-- A statement that starts with a given word, other than an expression. -/
def wordStatement (text : String) : Parser (Reading Stmt) :=
  match text with
  | "if" => ifStatement rules
  | "for" => iteration rules <|> counting rules
  | "while" => whileLoop rules
  | "do" => doLoop rules
  | "switch" => switchStatement rules
  | "try" => tryStatement rules
  | "return" => returnStatement rules
  | "throw" => throwStatement rules
  | "break" => jump "break" .breakStmt
  | "continue" => jump "continue" .continueStmt
  | "debugger" => do
    word "debugger"
    discard (semicolon false)
    return .ok .debugger
  | "var" | "let" | "const" => do return .varStmt <$> (← declaration rules true)
  | "using" | "await" => resourceDeclaration rules
  | "with" => withStatement rules
  | "import" => importStatement rules
  | "export" => exportStatement rules
  | _ => failure

/-- A statement. -/
def statement : Parser Statement := do
  match ← peek with
  | .mark "\x7b" => bracedStatement rules
  | .mark ";" => advance; return { reading := .ok .emptyStmt }
  | .mark "@" =>
    (do return { reading := ← exportStatement rules <|> namedDeclaration rules }) <|>
      expressionStatement rules
  | .word text =>
    if reserved.contains text && !expressionWords.contains text then
      return { reading := ← wordStatement rules text }
    else if ← atDeclaration then return { reading := ← namedDeclaration rules }
    else if ← atLabel then return { reading := ← labeledStatement rules }
    else (do return { reading := ← wordStatement rules text }) <|> expressionStatement rules
  | _ => (do return { reading := ← markupComment }) <|> expressionStatement rules

end Unminify.Grammar
