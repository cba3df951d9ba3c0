import Unminify.Document
import Unminify.Syntax.Tree

/-!
# Dumping trees

A tree as a document, and back. A form becomes an object with the form's name as its only key, a
form without parts just its name; fields stand in a fixed order. `Tree.ofDocument?` reads such a
document: missing optional fields count as null, unknown fields are ignored.
-/

namespace Unminify

/-- The dumped name of an operator. -/
def UnaryOp.label : UnaryOp → String
  | neg => "Neg"
  | plus => "Plus"
  | not => "Not"
  | bitNot => "BitNot"
  | typeOf => "TypeOf"
  | void => "Void"
  | delete => "Delete"

/-- The dumped name of an operator. -/
def UpdateOp.label : UpdateOp → String
  | increment => "Increment"
  | decrement => "Decrement"

/-- The dumped name of an operator. -/
def BinaryOp.label : BinaryOp → String
  | add => "Add"
  | sub => "Sub"
  | mul => "Mul"
  | div => "Div"
  | mod => "Mod"
  | exp => "Exp"
  | looseEq => "LooseEq"
  | looseNe => "LooseNe"
  | eq => "Eq"
  | ne => "Ne"
  | lt => "Lt"
  | le => "Le"
  | gt => "Gt"
  | ge => "Ge"
  | shl => "Shl"
  | shr => "Shr"
  | ushr => "UShr"
  | bitAnd => "BitAnd"
  | bitOr => "BitOr"
  | bitXor => "BitXor"
  | .in => "In"
  | instanceOf => "InstanceOf"
  | and => "And"
  | or => "Or"
  | nullish => "Nullish"

/-- The dumped name of an operator. -/
def AssignOp.label : AssignOp → String
  | assign => "Assign"
  | add => "Add"
  | sub => "Sub"
  | mul => "Mul"
  | div => "Div"
  | mod => "Mod"
  | exp => "Exp"
  | shl => "Shl"
  | shr => "Shr"
  | ushr => "UShr"
  | bitAnd => "BitAnd"
  | bitOr => "BitOr"
  | bitXor => "BitXor"
  | and => "And"
  | or => "Or"
  | nullish => "Nullish"

/-- The dumped name of a method kind. -/
def MethodKind.label : MethodKind → String
  | method => "Method"
  | getter => "Getter"
  | setter => "Setter"

/-- The dumped name of a declaration keyword. -/
def VarKind.label : VarKind → String
  | var => "Var"
  | lexical => "Let"
  | constant => "Const"

namespace Document

/-- A form with one unnamed part. -/
def form (name : String) (part : Document) : Document := object [(name, part)]

/-- A form with named parts. -/
def record (name : String) (fields : List (String × Document)) : Document :=
  object [(name, object fields)]

def optionalText : Option String → Document
  | some s => text s
  | none => null

end Document

/-- A dumped literal. -/
def Literal.document : Literal → Document
  | .null => .text "Null"
  | .bool value => .form "Bool" (.bool value)
  | .number value => .form "Number" (.float value)
  | .bigInt digits => .form "BigInt" (.text digits)
  | .string text => .form "String" (.text text)
  | .regex pattern flags => .record "Regex" [("pattern", .text pattern), ("flags", .text flags)]

namespace Tree

/-- A dumped tree. -/
def document : {c : Category} → Tree c → Document
  | _, ident text id =>
    .record "Name" (("name", .text text) ::
      match id with
      | .some n => [("id", .integer n)]
      | .none => [])
  | _, nameHole index => .form "Placeholder" (.integer index)
  | _, identExpr name => .form "Ident" (document name)
  | _, literal value => .form "Literal" value.document
  | _, this => .text "This"
  | _, super => .text "Super"
  | _, template chunks substitutions =>
    .record "Template" [("quasis", .texts chunks), ("exprs", document substitutions)]
  | _, tagged chunks tag substitutions =>
    .record "TaggedTemplate" [("tag", document tag),
      ("template", .object [("quasis", .texts chunks), ("exprs", document substitutions)])]
  | _, array items => .form "Array" (document items)
  | _, object properties => .form "Object" (document properties)
  | _, functionExpr fn => .form "Function" (document fn)
  | _, arrow isAsync params inner =>
    .record "Arrow" [("params", document params), ("body", document inner), ("is_async", .bool isAsync)]
  | _, classExpr definition => .form "Class" (document definition)
  | _, unary op arg => .record "Unary" [("op", .text op.label), ("arg", document arg)]
  | _, update op before arg =>
    .record "Update" [("op", .text op.label), ("prefix", .bool before), ("arg", document arg)]
  | _, binary op left right =>
    .record "Binary" [("left", document left), ("op", .text op.label), ("right", document right)]
  | _, assign op target value =>
    .record "Assign" [("target", document target), ("op", .text op.label), ("value", document value)]
  | _, conditional test consequent alternate =>
    .record "Conditional" [("test", document test), ("consequent", document consequent),
      ("alternate", document alternate)]
  | _, call optional callee args =>
    .record "Call" [("callee", document callee), ("args", document args), ("optional", .bool optional)]
  | _, new callee args => .record "New" [("callee", document callee), ("args", document args)]
  | _, access computed optional target property =>
    .record "Member" [("object", document target), ("property", document property),
      ("computed", .bool computed), ("optional", .bool optional)]
  | _, comma parts => .form "Sequence" (document parts)
  | _, spread arg => .form "Spread" (document arg)
  | _, await arg => .form "Await" (document arg)
  | _, yield delegate arg => .record "Yield" [("arg", document arg), ("delegate", .bool delegate)]
  | _, exprHole index orDeclaration =>
    .record "Placeholder" [("index", .integer index), ("or_declaration", .bool orDeclaration)]
  | _, nameBinder name => .form "Ident" (document name)
  | _, arrayBinder items => .form "Array" (document items)
  | _, objectBinder properties => .form "Object" (document properties)
  | _, defaultBinder target value =>
    .record "Default" [("target", document target), ("value", document value)]
  | _, restBinder target => .form "Rest" (document target)
  | _, keyedBinder key value => .record "KeyValue" [("key", document key), ("value", document value)]
  | _, shortBinder name value =>
    .record "Shorthand" [("name", document name), ("default", document value)]
  | _, restProp target => .form "Rest" (document target)
  | _, nameKey text => .form "Name" (.text text)
  | _, stringKey text => .form "String" (.text text)
  | _, numberKey value => .form "Number" (.float value)
  | _, computedKey expr => .form "Computed" (document expr)
  | _, keyed key value => .record "KeyValue" [("key", document key), ("value", document value)]
  | _, shorthand name => .form "Shorthand" (document name)
  | _, methodProp kind key fn =>
    .record "Method" [("key", document key), ("kind", .text kind.label), ("function", document fn)]
  | _, spreadProp arg => .form "Spread" (document arg)
  | _, function isAsync isGenerator name params inner =>
    .object [("name", document name), ("params", document params), ("body", document inner),
      ("is_async", .bool isAsync), ("is_generator", .bool isGenerator)]
  | _, exprBody value => .form "Expr" (document value)
  | _, blockBody inner => .form "Block" (document inner)
  | _, classDef name heritage members =>
    .object [("name", document name), ("super_class", document heritage), ("members", document members)]
  | _, method kind isStatic key fn =>
    .record "Method" [("key", document key), ("kind", .text kind.label), ("is_static", .bool isStatic),
      ("function", document fn)]
  | _, field isStatic key value =>
    .record "Field" [("key", document key), ("value", document value), ("is_static", .bool isStatic)]
  | _, staticBlock inner => .form "StaticBlock" (document inner)
  | _, varDecl kind declarators =>
    .object [("kind", .text kind.label), ("declarators", document declarators)]
  | _, declarator target init => .object [("target", document target), ("init", document init)]
  | _, declHead decl => .form "Var" (document decl)
  | _, exprHead expr => .form "Expr" (document expr)
  | _, switchCase test inner => .object [("test", document test), ("body", document inner)]
  | _, handler param inner => .object [("param", document param), ("body", document inner)]
  | _, exprStmt expr => .form "Expr" (document expr)
  | _, varStmt decl => .form "Var" (document decl)
  | _, functionStmt fn => .form "Function" (document fn)
  | _, classStmt definition => .form "Class" (document definition)
  | _, blockStmt inner => .form "Block" (document inner)
  | _, emptyStmt => .text "Empty"
  | _, ifStmt test consequent alternate =>
    .record "If" [("test", document test), ("consequent", document consequent),
      ("alternate", document alternate)]
  | _, forStmt init test step inner =>
    .record "For" [("init", document init), ("test", document test), ("update", document step),
      ("body", document inner)]
  | _, forIn left right inner =>
    .record "ForIn" [("left", document left), ("right", document right), ("body", document inner)]
  | _, forOf isAwait left right inner =>
    .record "ForOf" [("left", document left), ("right", document right), ("body", document inner),
      ("is_await", .bool isAwait)]
  | _, whileStmt test inner => .record "While" [("test", document test), ("body", document inner)]
  | _, doWhile test inner => .record "DoWhile" [("body", document inner), ("test", document test)]
  | _, returnStmt value => .form "Return" (document value)
  | _, throwStmt value => .form "Throw" (document value)
  | _, breakStmt label => .form "Break" (.optionalText label)
  | _, continueStmt label => .form "Continue" (.optionalText label)
  | _, labeled label inner => .record "Labeled" [("label", .text label), ("body", document inner)]
  | _, switchStmt discriminant cases =>
    .record "Switch" [("discriminant", document discriminant), ("cases", document cases)]
  | _, tryStmt block caught finalizer =>
    .record "Try" [("block", document block), ("handler", document caught),
      ("finalizer", document finalizer)]
  | _, debugger => .text "Debugger"
  | _, comment text => .form "Comment" (.text text)
  | _, sequence inner => .form "Sequence" (document inner)
  | _, stmtHole index multiLine =>
    .record "Placeholder" [("index", .integer index), ("multi_line", .bool multiLine)]
  | _, stmts items => document items
  | _, body inner => document inner
  | _, nil => .array []
  | _, cons head tail => (document head).consTo (document tail)
  | _, none => .null
  | _, some value => document value

end Tree

/-- A dumped program. -/
def Program.document (p : Program) : Document := .object [("body", p.body.document)]

/-! ## Reading dumps -/

namespace Document

/-- The name of a form, and its part if it has one. -/
def tagged? : Document → Option (String × Option Document)
  | text name => some (name, none)
  | object [(name, part)] => some (name, some part)
  | _ => none

/-- The element whose label is written in a document. -/
def labeled? {α : Type} (all : List α) (label : α → String) (d : Document) : Option α :=
  d.toText?.bind fun s => all.find? (label · == s)

/-- A dumped literal. -/
def toLiteral? (d : Document) : Option Literal :=
  match d.tagged? with
  | some ("Null", none) => some .null
  | some ("Null", some null) => some .null
  | some ("Bool", some v) => .bool <$> v.toBool?
  | some ("Number", some v) => .number <$> v.toNumber?
  | some ("BigInt", some v) => .bigInt <$> v.toText?
  | some ("String", some v) => .string <$> v.toText?
  | some ("Regex", some v) => .regex <$> (v.get "pattern").toText? <*> (v.get "flags").toText?
  | _ => none

end Document

namespace Tree

open Document (labeled?)

variable (read : (c : Category) → Document → Option (Tree c))

/-- Reads an identifier. -/
def readName (tag : String) (d : Document) : Option Name :=
  match tag with
  | "Name" => do
    let text ← (d.get "name").toText?
    match d.get "id" with
    | .null => return ident text Option.none
    | id => return ident text (Option.some (← id.toIndex?))
  | "Placeholder" => nameHole <$> d.toIndex?
  | _ => Option.none

/-- Reads an expression with parts. -/
def readExpr (tag : String) (d : Document) : Option Expr :=
  match tag with
  | "Ident" => identExpr <$> read _ d
  | "Literal" => literal <$> d.toLiteral?
  | "Template" => template <$> (d.get "quasis").toTexts? <*> read _ (d.get "exprs")
  | "TaggedTemplate" =>
    let t := d.get "template"
    tagged <$> (t.get "quasis").toTexts? <*> read _ (d.get "tag") <*> read _ (t.get "exprs")
  | "Array" => array <$> read _ d
  | "Object" => object <$> read _ d
  | "Function" => functionExpr <$> read _ d
  | "Arrow" =>
    arrow <$> (d.get "is_async").toBool? <*> read _ (d.get "params") <*> read _ (d.get "body")
  | "Class" => classExpr <$> read _ d
  | "Unary" => unary <$> labeled? UnaryOp.all UnaryOp.label (d.get "op") <*> read _ (d.get "arg")
  | "Update" =>
    update <$> labeled? UpdateOp.all UpdateOp.label (d.get "op") <*> (d.get "prefix").toBool? <*>
      read _ (d.get "arg")
  | "Binary" =>
    binary <$> labeled? BinaryOp.all BinaryOp.label (d.get "op") <*> read _ (d.get "left") <*>
      read _ (d.get "right")
  | "Assign" =>
    assign <$> labeled? AssignOp.all AssignOp.label (d.get "op") <*> read _ (d.get "target") <*>
      read _ (d.get "value")
  | "Conditional" =>
    conditional <$> read _ (d.get "test") <*> read _ (d.get "consequent") <*> read _ (d.get "alternate")
  | "Call" =>
    call <$> (d.get "optional").toBool? <*> read _ (d.get "callee") <*> read _ (d.get "args")
  | "New" => new <$> read _ (d.get "callee") <*> read _ (d.get "args")
  | "Member" =>
    access <$> (d.get "computed").toBool? <*> (d.get "optional").toBool? <*> read _ (d.get "object") <*>
      read _ (d.get "property")
  | "Sequence" => comma <$> read _ d
  | "Spread" => spread <$> read _ d
  | "Await" => await <$> read _ d
  | "Yield" => yield <$> (d.get "delegate").toBool? <*> read _ (d.get "arg")
  | "Placeholder" => exprHole <$> (d.get "index").toIndex? <*> (d.get "or_declaration").toBool?
  | _ => Option.none

/-- Reads a statement with parts. -/
def readStmt (tag : String) (d : Document) : Option Stmt :=
  match tag with
  | "Expr" => exprStmt <$> read _ d
  | "Var" => varStmt <$> read _ d
  | "Function" => functionStmt <$> read _ d
  | "Class" => classStmt <$> read _ d
  | "Block" => blockStmt <$> read _ d
  | "If" => ifStmt <$> read _ (d.get "test") <*> read _ (d.get "consequent") <*> read _ (d.get "alternate")
  | "For" =>
    forStmt <$> read _ (d.get "init") <*> read _ (d.get "test") <*> read _ (d.get "update") <*>
      read _ (d.get "body")
  | "ForIn" => forIn <$> read _ (d.get "left") <*> read _ (d.get "right") <*> read _ (d.get "body")
  | "ForOf" =>
    forOf <$> (d.get "is_await").toBool? <*> read _ (d.get "left") <*> read _ (d.get "right") <*>
      read _ (d.get "body")
  | "While" => whileStmt <$> read _ (d.get "test") <*> read _ (d.get "body")
  | "DoWhile" => doWhile <$> read _ (d.get "test") <*> read _ (d.get "body")
  | "Return" => returnStmt <$> read _ d
  | "Throw" => throwStmt <$> read _ d
  | "Break" => breakStmt <$> d.toOptionalText?
  | "Continue" => continueStmt <$> d.toOptionalText?
  | "Labeled" => labeled <$> (d.get "label").toText? <*> read _ (d.get "body")
  | "Switch" => switchStmt <$> read _ (d.get "discriminant") <*> read _ (d.get "cases")
  | "Try" =>
    tryStmt <$> read _ (d.get "block") <*> read _ (d.get "handler") <*> read _ (d.get "finalizer")
  | "Comment" => comment <$> d.toText?
  | "Sequence" => sequence <$> read _ d
  | "Placeholder" => stmtHole <$> (d.get "index").toIndex? <*> (d.get "multi_line").toBool?
  | _ => Option.none

/-- Reads a form of some category, given its name and its part. -/
def readForm (c : Category) (tag : String) (d : Document) : Option (Tree c) :=
  match c with
  | .name => readName tag d
  | .expr => readExpr read tag d
  | .binder =>
    match tag with
    | "Ident" => nameBinder <$> read _ d
    | "Array" => arrayBinder <$> read _ d
    | "Object" => objectBinder <$> read _ d
    | "Default" => defaultBinder <$> read _ (d.get "target") <*> read _ (d.get "value")
    | "Rest" => restBinder <$> read _ d
    | _ => Option.none
  | .binderProp =>
    match tag with
    | "KeyValue" => keyedBinder <$> read _ (d.get "key") <*> read _ (d.get "value")
    | "Shorthand" => shortBinder <$> read _ (d.get "name") <*> read _ (d.get "default")
    | "Rest" => restProp <$> read _ d
    | _ => Option.none
  | .key =>
    match tag with
    | "Name" => nameKey <$> d.toText?
    | "String" => stringKey <$> d.toText?
    | "Number" => numberKey <$> d.toNumber?
    | "Computed" => computedKey <$> read _ d
    | _ => Option.none
  | .property =>
    match tag with
    | "KeyValue" => keyed <$> read _ (d.get "key") <*> read _ (d.get "value")
    | "Shorthand" => shorthand <$> read _ d
    | "Method" =>
      methodProp <$> labeled? [.method, .getter, .setter] MethodKind.label (d.get "kind") <*>
        read _ (d.get "key") <*> read _ (d.get "function")
    | "Spread" => spreadProp <$> read _ d
    | _ => Option.none
  | .arrowBody =>
    match tag with
    | "Expr" => exprBody <$> read _ d
    | "Block" => blockBody <$> read _ d
    | _ => Option.none
  | .member =>
    match tag with
    | "Method" =>
      method <$> labeled? [.method, .getter, .setter] MethodKind.label (d.get "kind") <*>
        (d.get "is_static").toBool? <*> read _ (d.get "key") <*> read _ (d.get "function")
    | "Field" => field <$> (d.get "is_static").toBool? <*> read _ (d.get "key") <*> read _ (d.get "value")
    | "StaticBlock" => staticBlock <$> read _ d
    | _ => Option.none
  | .forHead =>
    match tag with
    | "Var" => declHead <$> read _ d
    | "Expr" => exprHead <$> read _ d
    | _ => Option.none
  | .stmt => readStmt read tag d
  | _ => Option.none

/-- Reads a form without parts. -/
def readUnit (c : Category) (tag : String) : Option (Tree c) :=
  match c, tag with
  | .expr, "This" => Option.some this
  | .expr, "Super" => Option.some super
  | .stmt, "Empty" => Option.some emptyStmt
  | .stmt, "Debugger" => Option.some debugger
  | _, _ => Option.none

/-- Reads a phrase of some category, its parts being read by `read`. -/
def readPhrase (c : Category) (d : Document) : Option (Tree c) :=
  match c with
  | .list c =>
    match d with
    | .array items => ofList <$> items.mapM (read c)
    | _ => Option.none
  | .option c =>
    match d with
    | .null => Option.some none
    | d => some <$> read c d
  | .block => stmts <$> read _ d
  | .body => body <$> read _ d
  | .function =>
    function <$> (d.get "is_async").toBool? <*> (d.get "is_generator").toBool? <*>
      read _ (d.get "name") <*> read _ (d.get "params") <*> read _ (d.get "body")
  | .classDef =>
    classDef <$> read _ (d.get "name") <*> read _ (d.get "super_class") <*> read _ (d.get "members")
  | .varDecl =>
    varDecl <$> labeled? [.var, .lexical, .constant] VarKind.label (d.get "kind") <*>
      read _ (d.get "declarators")
  | .declarator => declarator <$> read _ (d.get "target") <*> read _ (d.get "init")
  | .switchCase => switchCase <$> read _ (d.get "test") <*> read _ (d.get "body")
  | .handler => handler <$> read _ (d.get "param") <*> read _ (d.get "body")
  | c =>
    match d.tagged? with
    | .some (tag, .some part) =>
      readForm read c tag part <|> (match part with | .null => readUnit c tag | _ => Option.none)
    | .some (tag, .none) => readUnit c tag
    | .none => Option.none

/-- Reads a phrase nested at most `fuel` deep. -/
def readWithin : Nat → (c : Category) → Document → Option (Tree c)
  | 0, _, _ => Option.none
  | n + 1, c, d => readPhrase (readWithin n) c d

/-- Reads a dumped phrase. Every step into a document is at most three steps into the tree. -/
def ofDocument? (c : Category) (d : Document) : Option (Tree c) := readWithin (3 * d.depth + 3) c d

end Tree

/-- Reads a dumped program. -/
def Program.ofDocument? (d : Document) : Option Program :=
  Program.mk <$> Tree.ofDocument? .block (d.get "body")

end Unminify
