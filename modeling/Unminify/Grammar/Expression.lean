import Unminify.Grammar.Function
import Unminify.Grammar.Markup
import Unminify.Grammar.RawText

/-!
# Expressions

Expressions are operands joined by binary operators and conditionals. An operand is a primary phrase
followed by accesses and calls, or an operator or word in front of an operand. An assignment is an
operand as well: its target is an operand, and its value reaches as far to the right as possible.
-/

namespace Unminify.Grammar

open Unminify.Grammar.Parser

/-- What an operand is to an assignment or a pattern around it. -/
inductive Form
  | name
  /-- The word `undefined`, which can be assigned to but not updated. -/
  | undefined
  | access (computed : Bool)
  | parenthesized
  | other
deriving DecidableEq

/-- Whether an operand of a form may be the target of an assignment. -/
def Form.isTarget (op : AssignOp) : Form → Bool
  | name | access _ | parenthesized => true
  | undefined => op = .assign
  | other => false

/-- A parsed operand. -/
structure Operand where
  reading : Reading Expr
  form : Form := .other
  /-- A template behind it is taken as tagged by it. -/
  takesTemplate : Bool := true

/-- Words that an expression may start with although they are never names. -/
def expressionWords : List String :=
  ["class", "delete", "function", "import", "new", "super", "this", "typeof", "void"]

/-- Marks that an expression may start with. -/
def expressionMarks : List String :=
  ["(", "[", "\x7b", "/", "/=", "<", "+", "-", "++", "--", "!", "~", "@", "\x60"]

/-- Whether an expression may start with a token. -/
def startsExpression : Token → Bool
  | .word text => !reserved.contains text || expressionWords.contains text
  | .privateName _ | .number _ | .string _ _ => true
  | .mark text => expressionMarks.contains text
  | .endOfInput | .unknown => false

/-- How tightly a binary operator binds. -/
def precedence : BinaryOp → Nat
  | .nullish => 1
  | .or => 2
  | .and => 3
  | .bitOr => 4
  | .bitXor => 5
  | .bitAnd => 6
  | .looseEq | .looseNe | .eq | .ne => 7
  | .lt | .le | .gt | .ge | .in | .instanceOf => 8
  | .shl | .shr | .ushr => 9
  | .add | .sub => 10
  | .mul | .div | .mod => 11
  | .exp => 12

/-- How tightly a conditional binds. -/
def conditionalPrecedence : Nat := 1

/-- The binary operator a token stands for. -/
def binaryOperator? (ctx : Context) : Token → Option BinaryOp
  | .mark text => BinaryOp.ofText? text
  | .word text => if text == "in" && ctx.withoutIn then none else BinaryOp.ofText? text
  | _ => none

/-- The string literal that names a property. -/
def propertyLiteral (text : String) : Expr := .literal (.string text)

variable (rules : Rules)

/-! ## Calls, accesses and objects -/

/-- An expression or a spread one. -/
def argument : Parser (Reading Expr) := do
  if ← mark? "..." then return .spread <$> (← rules (.expression .enclosed))
  else rules (.expression .enclosed)

/-- Arguments in parentheses. -/
def arguments : Parser (Reading (List Expr)) := do
  mark "("
  let found ← elements ")" (argument rules)
  return readAll (found.filterMap id)

/-- An expression in square brackets behind an object. -/
def index : Parser (Reading Expr) := do
  mark "["
  let e ← rules (.expressions .enclosed)
  mark "]"
  return e

/-- The name behind the dot of an access. -/
def propertyName : Parser String :=
  accept fun
    | .word text | .privateName text => some text
    | _ => none

/-- One more access, call, template or update behind an operand, or nothing. -/
def postfixStep (ctx : Context) (calls : Bool) (o : Operand) : Parser (Operand × Bool) := do
  match ← peek with
  | .mark "." =>
    advance
    let text ← propertyName
    return ({
      reading := do return .access false false (← o.reading) (propertyLiteral text)
      form := .access false }, true)
  | .mark "?." =>
    advance
    match ← peek with
    | .mark "(" =>
      let args ← arguments rules
      return ({ reading := do return .call true (← o.reading) (.ofList (← args)) }, true)
    | .mark "[" =>
      let i ← index rules
      return ({
        reading := do return .access true true (← o.reading) (← i)
        form := .access true }, true)
    | _ =>
      let text ← propertyName
      return ({
        reading := do return .access false true (← o.reading) (propertyLiteral text)
        form := .access false }, true)
  | .mark "[" =>
    let i ← index rules
    return ({
      reading := do return .access true false (← o.reading) (← i)
      form := .access true }, true)
  | .mark "(" =>
    if calls then
      let args ← arguments rules
      return ({ reading := do return .call false (← o.reading) (.ofList (← args)) }, true)
    else return (o, false)
  | .mark "\x60" =>
    if o.takesTemplate then
      let (chunks, substitutions) ← template rules
      return ({ reading := do return .tagged chunks (← o.reading) (.ofList (← substitutions)) }, true)
    else return (o, false)
  | .mark text =>
    match UpdateOp.ofText? text with
    | some op =>
      if !calls || (ctx.endsStatement && (← atSemicolon true)) then return (o, false)
      else
        advance
        return ({ reading := .update op false <$> o.reading, takesTemplate := false }, true)
    | none => return (o, false)
  | _ => return (o, false)

/-- An operand with all that follows it; calls are left out of what `new` is applied to. -/
def chain (ctx : Context) (calls : Bool) (o : Operand) : Parser Operand :=
  repeatFrom o (postfixStep rules ctx calls)

/-- An array literal. -/
def arrayLiteral : Parser (Reading Expr) := do
  mark "["
  let found ← elements "]" (argument rules)
  return do return .array (.ofList ((← readElements found).map .ofOption))

/-- A member of an object literal, and whether it is only a name. -/
def property : Parser (Reading (Tree .property) × Bool) := do
  let asSpread : Parser (Reading (Tree .property) × Bool) := do
    mark "..."
    let e ← rules (.expression .enclosed)
    return (.spreadProp <$> e, false)
  let asPair : Parser (Reading (Tree .property) × Bool) := do
    let key ← propertyKey rules
    mark ":"
    let value ← rules (.expression .enclosed)
    return (.keyed <$> key <*> value, false)
  let asMethod : Parser (Reading (Tree .property) × Bool) := do
    let m ← method rules false
    return (do return .methodProp m.kind (← m.key) (← m.function), false)
  let asShorthand : Parser (Reading (Tree .property) × Bool) := do
    let ident ← identifier
    return (.ok (.shorthand ident), true)
  asSpread <|> asPair <|> asMethod <|> asShorthand

/-- The members of an object literal. -/
def objectMembers : Parser (List (Option (Reading (Tree .property) × Bool))) := do
  mark "\x7b"
  elements "\x7d" (property rules)

/-- An object literal. -/
def objectLiteral : Parser (Reading Expr) := do
  let found := (← objectMembers rules).filterMap id
  return do return .object (.ofList (← readAll (found.map (·.1))))

/-- Words that start a statement, so that a brace before them opens a block. -/
def statementWords : List String :=
  ["break", "class", "const", "continue", "debugger", "delete", "do", "false", "for", "function", "if",
    "import", "new", "null", "return", "super", "switch", "this", "throw", "true", "try", "typeof",
    "undefined", "var", "void", "while", "with", "yield"]

/-- Whether an object literal, rather than a block, can be read where both may stand: it has a
member, and the first one is more than a name. -/
def startsObject : Parser Bool :=
  foresees do
    require !(← foresees do
      mark "\x7b"
      accept fun
        | .word text => if statementWords.contains text then some () else none
        | _ => none)
    match ← objectMembers rules with
    | some (_, isName) :: _ => require !isName
    | _ => failure

/-! ## Functions and primary phrases -/

/-- The body of an arrow function from its arrow on. -/
def arrowRest (ctx : Context) (isAsync : Bool) (params : Reading (List (Tree .binder))) :
    Parser Operand := do
  mark "=>"
  let finish (body : Reading (Tree .arrowBody)) : Operand :=
    { reading := do return .arrow isAsync (.ofList (← params)) (← body) }
  let asExpression : Parser Operand := do
    if ← atMark "\x7b" then require (← startsObject rules)
    return finish (.exprBody <$> (← rules (.expression ctx)))
  let asBlock : Parser Operand := return finish (.blockBody <$> (← rules .block))
  asExpression <|> asBlock

/-- A name as the only parameter of an arrow function. -/
def loneParameter : Parser (Reading (List (Tree .binder))) := do
  let ident ← identifier
  require (← atMark "=>")
  return .ok [.nameBinder ident]

/-- A name standing for itself. -/
def nameOperand : Parser Operand := do
  let (text, start) ← name
  return {
    reading := .ok (.identExpr (.ident text (some start)))
    form := if text == "undefined" then .undefined else .name }

/-- A name, or an arrow function of one parameter. -/
def nameOrArrow (ctx : Context) : Parser Operand :=
  (do arrowRest rules ctx false (← loneParameter)) <|> nameOperand

/-- What `async` may start: a function, an arrow function, or a name that happens to be that word. -/
def asyncOperand (ctx : Context) : Parser Operand := do
  let unbroken : Parser Unit := do
    word "async"
    require !(ctx.endsStatement && (← atSemicolon true))
  let asFunction : Parser Operand := do
    require (← foresees do
      unbroken
      word "function")
    return { reading := .functionExpr <$> (← keywordFunction rules false) }
  let asArrow : Parser Operand := do
    unbroken
    arrowRest rules ctx true (← loneParameter <|> parameters rules)
  asFunction <|> asArrow <|> nameOrArrow rules ctx

/-- Parentheses: around an expression, or around the parameters of an arrow function. -/
def parenthesized (ctx : Context) : Parser Operand :=
  let grouping : Parser Operand := do
    mark "("
    let e ← rules (.expressions .enclosed)
    mark ")"
    require !(← atMark "=>")
    return { reading := e, form := .parenthesized }
  grouping <|> do arrowRest rules ctx false (← parameters rules)

/-- An array or object literal, or an assignment that destructures. -/
def literalOrDestructuring (ctx : Context) (literal : Parser (Reading Expr)) : Parser Operand :=
  let asLiteral : Parser Operand := do
    let e ← literal
    require !(← atMark "=")
    return { reading := e }
  asLiteral <|> do
    let target ← destructuring rules
    mark "="
    let value ← rules (.expression ctx)
    return { reading := .assign .assign <$> target.asExpr <*> value }

/-- A class expression, with its decorators. -/
def classOperand : Parser Operand := do
  decorators rules
  word "class"
  return { reading := .classExpr <$> (← rules .classRest) }

/-- The word `import` as what is called or accessed. -/
def importOperand : Parser Operand := do
  let asMeta : Parser Operand := do
    let e ← unsupported "expression type" "meta_property" do
      word "import"
      mark "."
      word "meta"
    return { reading := .error e }
  let asName : Parser Operand := do
    let start := (← get).next.start
    word "import"
    require ((← atMark "(") || (← atMark "."))
    return { reading := .ok (.identExpr (.ident "import" (some start))) }
  asMeta <|> asName

/-- A markup element as an operand. -/
def markupOperand : Parser Operand := do
  let s := (← get).next
  let form ← rules .markup
  Markup.char '>'
  return { reading := .error (.unsupported "expression type" form (← snippetFrom s.start s.here)) }

/-- A phrase that needs nothing around it. What `new` stands before is given as a parser. -/
def primary (ctx : Context) (new : Parser Operand) : Parser Operand := do
  let plain (e : Expr) : Parser Operand := do
    advance
    return { reading := .ok e }
  match ← peek with
  | .word "this" => plain .this
  | .word "super" => plain .super
  | .word "null" => plain (.literal .null)
  | .word "true" => plain (.literal (.bool true))
  | .word "false" => plain (.literal (.bool false))
  | .word "function" => return { reading := .functionExpr <$> (← keywordFunction rules false) }
  | .word "class" => classOperand rules
  | .word "async" => asyncOperand rules ctx
  | .word "new" => new
  | .word "import" => importOperand
  | .word _ => nameOrArrow rules ctx
  | .number text =>
    match Numeral.read? text with
    | some (.number value) => plain (.literal (.number value))
    | some (.bigInt digits) => plain (.literal (.bigInt digits))
    | none => failure
  | .string quote inner => plain (.literal (.string (Quoted.content quote inner)))
  | .privateName text =>
    advance
    require (← atWord "in")
    let snippet := String.ofList (text.toList.take 40)
    return {
      reading := .error (.unsupported "expression type" "private_property_identifier" snippet) }
  | .mark "(" => parenthesized rules ctx
  | .mark "[" => literalOrDestructuring rules ctx (arrayLiteral rules)
  | .mark "\x7b" => literalOrDestructuring rules ctx (objectLiteral rules)
  | .mark "\x60" =>
    let (chunks, substitutions) ← template rules
    return { reading := do return .template chunks (.ofList (← substitutions)) }
  | .mark "/" | .mark "/=" => return { reading := .ok (← regex) }
  | .mark "<" => markupOperand rules
  | .mark "@" => classOperand rules
  | _ => failure

/-- `new` with what it constructs. Of several in a row, each takes the arguments left by the ones
behind it. -/
def newOperand (ctx : Context) : Nat → Parser Operand
  | 0 => failure
  | depth + 1 => do
    let asTarget : Parser Operand := do
      let e ← unsupported "expression type" "meta_property" do
        word "new"
        mark "."
        word "target"
      return { reading := .error e }
    asTarget <|> do
      word "new"
      let callee ←
        if (← atWord "new") && !(← foresees asTarget) then newOperand ctx depth
        else chain rules ctx false (← primary rules ctx (newOperand ctx depth))
      let args ← if ← atMark "(" then arguments rules else pure (.ok [])
      return { reading := do
        let args ← args
        return .new (← callee.reading) (.ofList args) }

/-- A primary phrase with all that follows it. -/
def wholeOperand (ctx : Context) : Parser Operand := do
  let depth := (← get).next.here.length
  chain rules ctx true (← primary rules ctx (newOperand rules ctx depth))

/-! ## Operands and operations -/

/-- An operand that may be the target of an assignment, with the assignment. -/
def operandOrAssignment (ctx : Context) : Parser (Reading Expr) := do
  let o ← wholeOperand rules ctx
  match ← peek with
  | .mark text =>
    match AssignOp.ofText? text with
    | some op =>
      if o.form.isTarget op then
        advance
        let value ← rules (.expression ctx)
        return .assign op <$> o.reading <*> value
      else return o.reading
    | none => return o.reading
  | _ => return o.reading

/-- What `yield` gives away. -/
def yielded (ctx : Context) : Parser (Reading Expr) := do
  word "yield"
  if ← mark? "*" then
    let e ← rules (.expression ctx)
    return do return .yield true (.some (← e))
  else if (ctx.endsStatement && (← atSemicolon true)) || !startsExpression (← peek) then
    return .ok (.yield false .none)
  else
    let e ← rules (.expression ctx)
    return do return .yield false (.some (← e))

/-- What `await` waits for; the word is a name if nothing to wait for follows it. -/
def awaited (ctx : Context) : Parser (Reading Expr) :=
  (do
    word "await"
    require !(ctx.endsStatement && (← atSemicolon true))
    require (startsExpression (← peek))
    return .await <$> (← rules (.operand ctx))) <|>
  operandOrAssignment rules ctx

/-- An operand. -/
def operand (ctx : Context) : Parser (Reading Expr) := do
  let applied (op : UnaryOp) : Parser (Reading Expr) := do
    advance
    return .unary op <$> (← rules (.operand ctx))
  match ← peek with
  | .word "yield" => yielded rules ctx
  | .word "await" => awaited rules ctx
  | .word text =>
    match UnaryOp.ofText? text with
    | some op => applied op
    | none => operandOrAssignment rules ctx
  | .mark text =>
    match UnaryOp.ofText? text, UpdateOp.ofText? text with
    | some op, _ => applied op
    | none, some op =>
      advance
      return .update op true <$> (← rules (.operand ctx))
    | none, none => operandOrAssignment rules ctx
  | _ => operandOrAssignment rules ctx

/-- Operands joined by operators that bind at least as tightly as `least`. -/
def operation (ctx : Context) (least : Nat) : Parser (Reading Expr) := do
  let first ← rules (.operand ctx)
  repeatFrom first fun left => do
    let token ← peek
    match binaryOperator? ctx token with
    | some op =>
      if precedence op < least then return (left, false)
      else
        advance
        let right ← rules (.operation ctx (if op = .exp then precedence op else precedence op + 1))
        return (.binary op <$> left <*> right, true)
    | none =>
      if token == .mark "?" && least ≤ conditionalPrecedence then
        advance
        let consequent ← rules (.expression .enclosed)
        mark ":"
        let alternate ← rules (.operation ctx conditionalPrecedence)
        return (.conditional <$> left <*> consequent <*> alternate, true)
      else return (left, false)

/-- One expression. -/
def expression (ctx : Context) : Parser (Reading Expr) := rules (.operation ctx 0)

/-- Expressions with commas between them. -/
def expressions (ctx : Context) : Parser (Reading Expr) := do
  let first ← rules (.expression ctx)
  let more ← repeatFrom [] fun acc => do
    if ← mark? "," then
      let e ← rules (.expression ctx)
      return (e :: acc, true)
    else return (acc, false)
  if more.isEmpty then return first
  else return do return .comma (.ofList (← readAll (first :: more.reverse)))

/-! ## Targets -/

/-- The two readings of an operand that is assigned to. Only a name can be bound. -/
def Operand.target (o : Operand) (snippet : String) : Option Target :=
  match o.form with
  | .name | .undefined => some {
      asBinder := do
        match ← o.reading with
        | .identExpr ident => return .nameBinder ident
        | _ => throw .malformed
      asExpr := o.reading }
  | .access computed =>
    let form := if computed then "subscript_expression" else "member_expression"
    some { asBinder := .error (.unsupported "binding pattern" form snippet), asExpr := o.reading }
  | .parenthesized | .other => none

/-- A name or an access. Functions and classes are not looked into for something to access. -/
def plainTarget : Parser Target := do
  let s := (← get).next
  let base : Parser Operand := do
    match ← peek with
    | .word "this" | .word "super" | .word "null" | .word "true" | .word "false" | .word "import" =>
      primary rules .enclosed failure
    | .word _ => nameOperand
    | _ => primary rules .enclosed failure
  let o ← chain rules .enclosed true (← base)
  match o.target (← snippetFrom s.start s.here) with
  | some t => return t
  | none => failure

/-- The target of a declaration or an assignment, without rest. -/
def simpleTarget : Parser Target := do
  let destructured : Parser Target := do
    let t ← destructuring rules
    let continues : Bool :=
      match ← peek with
      | .mark text => [".", "[", "(", "?.", "\x60"].contains text
      | _ => false
    require !continues
    return t
  destructured <|> plainTarget rules

/-- The target of a declaration or an assignment. -/
def pattern : Parser Target := do
  if ← mark? "..." then
    let t ← simpleTarget rules
    return { asBinder := .restBinder <$> t.asBinder, asExpr := .spread <$> t.asExpr }
  else simpleTarget rules

end Unminify.Grammar
