import Unminify.Number.Numeral
import Unminify.Printer.Strength
import Unminify.Text.Alphanumeric

/-!
# Writing programs

`Tree.print` writes a phrase with two blanks of indentation per level, parentheses being derived
from binding strengths. What printing a phrase yields depends on its category (`Printed`): most
phrases give a text once the indentation level is known, a statement list gives its statements one
by one, and a function gives its parts, since methods arrange them differently.

Some decisions look at text already written: a statement may not start like a declaration, an arrow
body may not start with a brace, and two signs may not run together.
-/

namespace Unminify

/-- A text for each indentation level. -/
abbrev Layout := Nat → String

namespace Printer

def leftBrace : String := "\x7b"

def rightBrace : String := "\x7d"

/-- The blanks that start a line. -/
def indent (level : Nat) : String := String.join (List.replicate level "  ")

/-- The text in parentheses if `needed`. -/
def parenthesized (needed : Bool) (text : String) : String :=
  if needed then "(" ++ text ++ ")" else text

/-- Parts with a comma and a blank between them. -/
def commaSeparated (parts : List String) : String := ", ".intercalate parts

/-- Statements one to a line, each line ended. -/
def lines (statements : List Layout) (level : Nat) : String :=
  String.join (statements.map fun s => indent level ++ s level ++ "\n")

/-- Statements in braces. -/
def braced (statements : List Layout) (level : Nat) : String :=
  if statements.isEmpty then leftBrace ++ rightBrace
  else leftBrace ++ "\n" ++ lines statements (level + 1) ++ indent level ++ rightBrace

/-- A word at the very start of a text, not continued by further characters of a name. -/
def startsWithWord (text word : String) : Bool :=
  match text.toList.drop word.length with
  | [] => text == word
  | c :: _ => text.startsWith word && !(Text.isAlphanumeric c || c == '_' || c == '$')

/-- Texts that would not be read as an expression at the start of a statement. -/
def startsLikeDeclaration (text : String) : Bool :=
  text.startsWith leftBrace || startsWithWord text "function" || startsWithWord text "class" ||
    text.startsWith "async function" || text.startsWith "let[" || text.startsWith "let ["

/-- Elements of an array; an absent last element needs a comma of its own. -/
def elements (parts : List (Option String)) : String :=
  commaSeparated (parts.map (·.getD "")) ++ if parts.getLast? = some none then "," else ""

/-- Chunks of a template with its substitutions between them. -/
def templateText (chunks substitutions : List String) : String :=
  let rec weave : List String → List String → String
    | [], _ => ""
    | q :: qs, [] => q ++ weave qs []
    | q :: qs, s :: ss => q ++ "$" ++ leftBrace ++ s ++ rightBrace ++ weave qs ss
  "`" ++ weave chunks substitutions ++ "`"

/-- The text of a literal. -/
def literal : Literal → String
  | .null => "null"
  | .bool true => "true"
  | .bool false => "false"
  | .number x => x.numeral
  | .bigInt digits => digits ++ "n"
  | .string text => "\"" ++ text ++ "\""
  | .regex pattern flags => "/" ++ pattern ++ "/" ++ flags

/-- What printing a statement yields. -/
structure Statement where
  /-- The statement without leading blanks. -/
  inline : Layout
  /-- Its braced form, for blocks and sequences. -/
  braces : Option Layout
  isEmpty : Bool

namespace Statement

/-- A statement that has only its plain form. -/
def plain (inline : Layout) : Statement := ⟨inline, none, false⟩

/-- A statement governed by a header just written. -/
def underHeader (s : Statement) (level : Nat) : String :=
  match s.braces with
  | some braces => " " ++ braces level
  | none => if s.isEmpty then ";" else "\n" ++ indent (level + 1) ++ s.inline (level + 1)

/-- A keyword that goes on after the statement. -/
def followedBy (s : Statement) (keyword : String) (level : Nat) : String :=
  match s.braces with
  | some _ => " " ++ keyword
  | none => "\n" ++ indent level ++ keyword

end Statement

/-- What printing a function yields. -/
structure Function where
  isAsync : Bool
  isGenerator : Bool
  name : Option String
  /-- Parameters and body. -/
  rest : String

/-- A function written with its keyword. -/
def Function.text (f : Function) : String :=
  (if f.isAsync then "async " else "") ++ "function" ++ (if f.isGenerator then "*" else "") ++
    (match f.name with | some name => " " ++ name | none => "") ++ f.rest

/-- A function written as a method. -/
def Function.asMethod (f : Function) (kind : MethodKind) (key : String) : String :=
  (match kind with | .getter => "get " | .setter => "set " | .method => "") ++
    (if f.isAsync then "async " else "") ++ (if f.isGenerator then "*" else "") ++ key ++ f.rest

/-- The two places of a loop head: before the first `;`, or left of `in` and `of`. -/
inductive HeadPlace
  | init | left
deriving DecidableEq

/-- What printing a phrase yields. -/
@[reducible] def Printed : Category → Type
  | .name => String
  | .expr => Layout
  | .binder => Layout
  | .binderProp => Layout
  | .key => Layout
  | .property => Layout
  | .function => Nat → Function
  | .arrowBody => Layout
  | .classDef => Layout
  | .member => Layout
  | .varDecl => Bool → Layout
  | .declarator => Bool → Layout
  | .forHead => HeadPlace → Layout
  | .switchCase => Layout
  | .handler => Layout
  | .stmt => Statement
  | .block => List Layout
  | .body => Statement
  | .list c => List (Printed c)
  | .option c => Option (Printed c)

/-- An expression's text in a place that asks for strength `least`. -/
def atLeast (least : Strength) (e : Expr) (text : String) : String :=
  parenthesized (e.strength < least) text

/-- An operand of a binary operator. -/
def operand (least : Strength) (parent : BinaryOp) (e : Expr) (text : String) : String :=
  match e with
  | .binary op _ _ => if parent.mixes op then parenthesized true text else atLeast least e text
  | _ => atLeast least e text

/-- An expression in the head of a `for` loop, where a bare `in` would end it. -/
def withoutIn (least : Strength) (e : Expr) (text : String) : String :=
  if e.showsIn then parenthesized true text else atLeast least e text

/-- Expressions of a list, each as strong as an assignment. -/
def arguments (es : List Expr) (texts : List Layout) (level : Nat) : String :=
  commaSeparated ((es.zip texts).map fun (e, t) => atLeast Strength.assignment e (t level))

end Printer

namespace Tree

open Printer

/-- Prints a phrase. -/
def print : {c : Category} → Tree c → Printed c
  -- identifiers
  | .name, ident text _ => text
  | .name, nameHole index => "placeholder" ++ toString index
  -- expressions
  | .expr, identExpr name => fun _ => print name
  | .expr, literal value => fun _ => Printer.literal value
  | .expr, this => fun _ => "this"
  | .expr, super => fun _ => "super"
  | .expr, template chunks substitutions => fun n =>
    templateText chunks ((print substitutions).map (· n))
  | .expr, tagged chunks tag substitutions => fun n =>
    atLeast Strength.call tag (print tag n) ++ templateText chunks ((print substitutions).map (· n))
  | .expr, array items => fun n =>
    let texts := (items.toList.zip (print items)).map fun (e, t) =>
      match e.toOption, t with
      | .some e, .some t => Option.some (atLeast Strength.assignment e (t n))
      | _, _ => Option.none
    "[" ++ elements texts ++ "]"
  | .expr, object properties => fun n =>
    let texts := (print properties).map (· n)
    if texts.isEmpty then leftBrace ++ rightBrace
    else leftBrace ++ " " ++ commaSeparated texts ++ " " ++ rightBrace
  | .expr, functionExpr fn => fun n => (print fn n).text
  | .expr, arrow isAsync params inner => fun n =>
    (if isAsync then "async " else "") ++ "(" ++ commaSeparated ((print params).map (· n)) ++
      ") => " ++ print inner n
  | .expr, classExpr definition => fun n => print definition n
  | .expr, unary op arg => fun n =>
    let text := atLeast Strength.before arg (print arg n)
    let fuses := (op == .neg && text.startsWith "-") || (op == .plus && text.startsWith "+")
    op.text ++ (if op.isKeyword || fuses then " " else "") ++ text
  | .expr, update op before arg => fun n =>
    if before then op.text ++ atLeast Strength.after arg (print arg n)
    else atLeast Strength.call arg (print arg n) ++ op.text
  | .expr, binary op left right => fun n =>
    operand op.operandStrengths.1 op left (print left n) ++ " " ++ op.text ++ " " ++
      operand op.operandStrengths.2 op right (print right n)
  | .expr, assign op target value => fun n =>
    atLeast Strength.call target (print target n) ++ " " ++ op.text ++ " " ++
      atLeast Strength.assignment value (print value n)
  | .expr, conditional test consequent alternate => fun n =>
    atLeast (Strength.conditional + 1) test (print test n) ++ " ? " ++
      atLeast Strength.assignment consequent (print consequent n) ++ " : " ++
      atLeast Strength.assignment alternate (print alternate n)
  | .expr, call optional callee args => fun n =>
    atLeast Strength.call callee (print callee n) ++ (if optional then "?." else "") ++ "(" ++
      arguments args.toList (print args) n ++ ")"
  | .expr, new callee args => fun n =>
    let text := print callee n
    "new " ++ (if callee.containsCall then parenthesized true text else atLeast Strength.call callee text) ++
      "(" ++ arguments args.toList (print args) n ++ ")"
  | .expr, access computed optional target property => fun n =>
    let text := print target n
    let targetText :=
      match target with
      | literal (.number _) => parenthesized true text
      | _ => atLeast Strength.call target text
    let propertyText := print property n
    let accessText :=
      match computed, property with
      | false, literal (.string name) => (if optional then "?." else ".") ++ name
      | _, _ => (if optional then "?." else "") ++ "[" ++ propertyText ++ "]"
    targetText ++ accessText
  | .expr, comma parts => arguments parts.toList (print parts)
  | .expr, spread arg => fun n => "..." ++ atLeast Strength.assignment arg (print arg n)
  | .expr, await arg => fun n => "await " ++ atLeast Strength.before arg (print arg n)
  | .expr, yield delegate arg => fun n =>
    let argText :=
      match arg.toOption, print arg with
      | .some e, .some t => " " ++ atLeast Strength.assignment e (t n)
      | _, _ => ""
    "yield" ++ (if delegate then "*" else "") ++ argText
  | .expr, exprHole index orDeclaration => fun _ =>
    "expression" ++ toString index ++ if orDeclaration then ".orDeclaration" else ""
  -- binding patterns
  | .binder, nameBinder name => fun _ => print name
  | .binder, arrayBinder items => fun n =>
    "[" ++ elements ((print items).map fun t => t.map (· n)) ++ "]"
  | .binder, objectBinder properties => fun n =>
    let texts := (print properties).map (· n)
    if texts.isEmpty then leftBrace ++ rightBrace
    else leftBrace ++ " " ++ commaSeparated texts ++ " " ++ rightBrace
  | .binder, defaultBinder target value => fun n =>
    print target n ++ " = " ++ atLeast Strength.assignment value (print value n)
  | .binder, restBinder target => fun n => "..." ++ print target n
  | .binderProp, keyedBinder key value => fun n => print key n ++ ": " ++ print value n
  | .binderProp, shortBinder name value => fun n =>
    let defaultText :=
      match value.toOption, print value with
      | .some e, .some t => " = " ++ atLeast Strength.assignment e (t n)
      | _, _ => ""
    print name ++ defaultText
  | .binderProp, restProp target => fun n => "..." ++ print target n
  -- property keys
  | .key, nameKey text => fun _ => text
  | .key, stringKey text => fun _ => "\"" ++ text ++ "\""
  | .key, numberKey value => fun _ => value.numeral
  | .key, computedKey expr => fun n => "[" ++ atLeast Strength.assignment expr (print expr n) ++ "]"
  -- members of object literals
  | .property, keyed key value => fun n =>
    print key n ++ ": " ++ atLeast Strength.assignment value (print value n)
  | .property, shorthand name => fun _ => print name
  | .property, methodProp kind key fn => fun n => (print fn n).asMethod kind (print key n)
  | .property, spreadProp arg => fun n => "..." ++ atLeast Strength.assignment arg (print arg n)
  -- functions and classes
  | .function, function isAsync isGenerator name params inner => fun n =>
    { isAsync, isGenerator, name := print name,
      rest := "(" ++ commaSeparated ((print params).map (· n)) ++ ") " ++ braced (print inner) n }
  | .arrowBody, exprBody value => fun n =>
    let text := atLeast Strength.assignment value (print value n)
    parenthesized (text.startsWith leftBrace) text
  | .arrowBody, blockBody inner => braced (print inner)
  | .classDef, classDef name heritage members => fun n =>
    let heritageText :=
      match heritage.toOption, print heritage with
      | .some e, .some t => " extends " ++ atLeast Strength.call e (t n)
      | _, _ => ""
    "class" ++ (match print name with | .some name => " " ++ name | .none => "") ++ heritageText ++
      " " ++ braced (print members) n
  | .member, method kind isStatic key fn => fun n =>
    (if isStatic then "static " else "") ++ (print fn n).asMethod kind (print key n)
  | .member, field isStatic key value => fun n =>
    let valueText :=
      match value.toOption, print value with
      | .some e, .some t => " = " ++ atLeast Strength.assignment e (t n)
      | _, _ => ""
    (if isStatic then "static " else "") ++ print key n ++ valueText ++ ";"
  | .member, staticBlock inner => fun n => "static " ++ braced (print inner) n
  -- parts of statements
  | .varDecl, varDecl kind declarators => fun inHead n =>
    kind.text ++ " " ++ commaSeparated ((print declarators).map fun t => t inHead n)
  | .declarator, declarator target init => fun inHead n =>
    let initText :=
      match init.toOption, print init with
      | .some e, .some t =>
        " = " ++ (if inHead then withoutIn else atLeast) Strength.assignment e (t n)
      | _, _ => ""
    print target n ++ initText
  | .forHead, declHead decl => fun _ => print decl true
  | .forHead, exprHead expr => fun place n =>
    match place with
    | .init => withoutIn Strength.sequence expr (print expr n)
    | .left => atLeast Strength.call expr (print expr n)
  | .switchCase, switchCase test inner => fun n =>
    (match print test with | .some t => "case " ++ t n ++ ":\n" | .none => "default:\n") ++
      lines (print inner) (n + 1)
  | .handler, handler param inner => fun n =>
    " catch " ++ (match print param with | .some t => "(" ++ t n ++ ") " | .none => "") ++
      braced (print inner) n
  -- statements
  | .stmt, exprStmt expr => .plain fun n =>
    let text := print expr n
    parenthesized (startsLikeDeclaration text) text ++ ";"
  | .stmt, varStmt decl => .plain fun n => print decl false n ++ ";"
  | .stmt, functionStmt fn => .plain fun n => (print fn n).text
  | .stmt, classStmt definition => .plain fun n => print definition n
  | .stmt, blockStmt inner =>
    let braces := braced (print inner)
    ⟨braces, Option.some braces, false⟩
  | .stmt, emptyStmt => ⟨fun _ => ";", Option.none, true⟩
  | .stmt, ifStmt test consequent alternate => .plain fun n =>
    let first := print consequent
    let head := "if (" ++ print test n ++ ")"
    match alternate.toOption, print alternate with
    | .some other, .some second =>
      -- a trailing `else` must not go to a nested `if`
      let firstText :=
        if consequent.endsInOpenIf then " " ++ braced [first.inline] n ++ " else"
        else first.underHeader n ++ first.followedBy "else" n
      let secondText :=
        match other.bodyStmt with
        | ifStmt _ _ _ => " " ++ second.inline n
        | _ => second.underHeader n
      head ++ firstText ++ secondText
    | _, _ => head ++ first.underHeader n
  | .stmt, forStmt init test step inner => .plain fun n =>
    let clause (t : Option Layout) : String :=
      match t with | .some t => " " ++ t n | .none => ""
    "for (" ++ (match print init with | .some t => t .init n | .none => "") ++ ";" ++
      clause (print test) ++ ";" ++ clause (print step) ++ ")" ++ (print inner).underHeader n
  | .stmt, forIn left right inner => .plain fun n =>
    "for (" ++ print left .left n ++ " in " ++ print right n ++ ")" ++ (print inner).underHeader n
  | .stmt, forOf isAwait left right inner => .plain fun n =>
    (if isAwait then "for await (" else "for (") ++ print left .left n ++ " of " ++
      atLeast Strength.assignment right (print right n) ++ ")" ++ (print inner).underHeader n
  | .stmt, whileStmt test inner => .plain fun n =>
    "while (" ++ print test n ++ ")" ++ (print inner).underHeader n
  | .stmt, doWhile test inner => .plain fun n =>
    let first := print inner
    "do" ++ first.underHeader n ++ first.followedBy "while (" n ++ print test n ++ ");"
  | .stmt, returnStmt value => .plain fun n =>
    "return" ++ (match print value with | .some t => " " ++ t n | .none => "") ++ ";"
  | .stmt, throwStmt value => .plain fun n => "throw " ++ print value n ++ ";"
  | .stmt, breakStmt label => .plain fun _ =>
    "break" ++ (match label with | .some l => " " ++ l | .none => "") ++ ";"
  | .stmt, continueStmt label => .plain fun _ =>
    "continue" ++ (match label with | .some l => " " ++ l | .none => "") ++ ";"
  | .stmt, labeled label inner => .plain fun n => label ++ ": " ++ (print inner).inline n
  | .stmt, switchStmt discriminant cases => .plain fun n =>
    "switch (" ++ print discriminant n ++ ") " ++ leftBrace ++ "\n" ++
      String.join ((print cases).map fun t => indent (n + 1) ++ t (n + 1)) ++ indent n ++ rightBrace
  | .stmt, tryStmt block caught finalizer => .plain fun n =>
    "try " ++ braced (print block) n ++ (match print caught with | .some t => t n | .none => "") ++
      (match print finalizer with | .some b => " finally " ++ braced b n | .none => "")
  | .stmt, debugger => .plain fun _ => "debugger;"
  | .stmt, comment text => .plain fun _ => text
  | .stmt, sequence inner =>
    let parts := print inner
    ⟨fun n => ("\n" ++ indent n).intercalate (parts.map (· n)), Option.some (braced parts), false⟩
  | .stmt, stmtHole index multiLine => .plain fun _ =>
    "statement" ++ toString index ++ (if multiLine then ".multiLine" else "") ++ ";"
  -- positions
  | .block, stmts items => (print items).map (·.inline)
  | .body, body inner => @print .stmt inner
  -- lists and optional parts
  | .list _, nil => []
  | .list _, cons head tail => print head :: print tail
  | .option _, none => Option.none
  | .option _, some value => Option.some (print value)

/-- The text of an expression. -/
def exprText (e : Expr) : String := e.print 0

/-- The text of a statement, without a final line end. -/
def stmtText (s : Stmt) : String := s.print.inline 0

end Tree

/-- The text of a program: its statements, each ending its line. -/
def Program.text (p : Program) : String := Printer.lines p.body.print 0

end Unminify
