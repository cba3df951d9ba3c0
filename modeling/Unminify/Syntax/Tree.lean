import Unminify.Syntax.Operator
import Unminify.Number.Binary64

/-!
# The syntax tree

Programs and the patterns that match them are trees of one family, `Tree : Category → Type`. The
category says what kind of phrase a tree is, so a statement cannot stand where an expression is
needed. Lists and optional parts are categories too: a single induction on `Tree` covers every
phrase, with no side types.

Two categories mark positions that passes over trees treat specially: `block` is a statement list
(of a program, a block, a function, a case), `body` is the single statement governed by an `if`, a
loop or a label.

The children of every form stand in the order in which passes visit them. For a `do` loop that is
the test first and then the body.

Holes (`nameHole`, `exprHole`, `stmtHole`) occur in patterns only.
-/

namespace Unminify

/-- The kinds of phrase. -/
inductive Category
  | name | expr | binder | binderProp | key | property | function | arrowBody | classDef | member
  | varDecl | declarator | forHead | switchCase | handler | stmt | block | body
  /-- A list of phrases of one kind. -/
  | list (of : Category)
  /-- A phrase that may be absent. -/
  | option (of : Category)
deriving DecidableEq, Repr, Inhabited

/-- Literal values. Strings keep their escapes, as if double-quoted; a big integer keeps its digits. -/
inductive Literal
  | null
  | bool (value : Bool)
  | number (value : Binary64)
  | bigInt (digits : String)
  | string (text : String)
  | regex (pattern flags : String)
deriving DecidableEq, Repr, Inhabited

/-- Ordinary methods, getters and setters. -/
inductive MethodKind
  | method | getter | setter
deriving DecidableEq, Repr, Inhabited

/-- The keyword of a variable declaration. -/
inductive VarKind
  | var | lexical | constant
deriving DecidableEq, Repr, Inhabited

/-- The spelling of a declaration keyword. -/
def VarKind.text : VarKind → String
  | var => "var"
  | lexical => "let"
  | constant => "const"

/-- Syntax trees. -/
inductive Tree : Category → Type
  -- identifiers
  /-- An identifier occurrence; `id` is its byte offset in the source it was read from. -/
  | ident (text : String) (id : Option Nat) : Tree .name
  /-- A hole for an identifier. -/
  | nameHole (index : Nat) : Tree .name
  -- expressions
  | identExpr (name : Tree .name) : Tree .expr
  | literal (value : Literal) : Tree .expr
  | this : Tree .expr
  | super : Tree .expr
  /-- A template with its raw text chunks, one more than there are substitutions. -/
  | template (chunks : List String) (substitutions : Tree (.list .expr)) : Tree .expr
  | tagged (chunks : List String) (tag : Tree .expr) (substitutions : Tree (.list .expr)) : Tree .expr
  /-- An array literal; absent elements are the holes of `[a, , b]`. -/
  | array (elements : Tree (.list (.option .expr))) : Tree .expr
  | object (properties : Tree (.list .property)) : Tree .expr
  | functionExpr (function : Tree .function) : Tree .expr
  | arrow (isAsync : Bool) (params : Tree (.list .binder)) (body : Tree .arrowBody) : Tree .expr
  | classExpr (definition : Tree .classDef) : Tree .expr
  | unary (op : UnaryOp) (arg : Tree .expr) : Tree .expr
  | update (op : UpdateOp) (before : Bool) (arg : Tree .expr) : Tree .expr
  | binary (op : BinaryOp) (left right : Tree .expr) : Tree .expr
  /-- Assignment; a destructuring target is an array or object expression. -/
  | assign (op : AssignOp) (target value : Tree .expr) : Tree .expr
  | conditional (test consequent alternate : Tree .expr) : Tree .expr
  | call (optional : Bool) (callee : Tree .expr) (args : Tree (.list .expr)) : Tree .expr
  | new (callee : Tree .expr) (args : Tree (.list .expr)) : Tree .expr
  /-- Property access. The property of a dot access is the string literal of its name. -/
  | access (computed optional : Bool) (object property : Tree .expr) : Tree .expr
  | comma (parts : Tree (.list .expr)) : Tree .expr
  | spread (arg : Tree .expr) : Tree .expr
  | await (arg : Tree .expr) : Tree .expr
  | yield (delegate : Bool) (arg : Tree (.option .expr)) : Tree .expr
  /-- A hole for an expression, or with `orDeclaration` also for the declaration of a loop head. -/
  | exprHole (index : Nat) (orDeclaration : Bool) : Tree .expr
  -- binding patterns
  | nameBinder (name : Tree .name) : Tree .binder
  | arrayBinder (elements : Tree (.list (.option .binder))) : Tree .binder
  | objectBinder (properties : Tree (.list .binderProp)) : Tree .binder
  | defaultBinder (target : Tree .binder) (value : Tree .expr) : Tree .binder
  | restBinder (target : Tree .binder) : Tree .binder
  | keyedBinder (key : Tree .key) (value : Tree .binder) : Tree .binderProp
  | shortBinder (name : Tree .name) (value : Tree (.option .expr)) : Tree .binderProp
  | restProp (target : Tree .binder) : Tree .binderProp
  -- property keys
  /-- A key written as a word, private names included. -/
  | nameKey (text : String) : Tree .key
  | stringKey (text : String) : Tree .key
  | numberKey (value : Binary64) : Tree .key
  | computedKey (expr : Tree .expr) : Tree .key
  -- members of object literals
  | keyed (key : Tree .key) (value : Tree .expr) : Tree .property
  | shorthand (name : Tree .name) : Tree .property
  | methodProp (kind : MethodKind) (key : Tree .key) (function : Tree .function) : Tree .property
  | spreadProp (arg : Tree .expr) : Tree .property
  -- functions and classes
  | function (isAsync isGenerator : Bool) (name : Tree (.option .name)) (params : Tree (.list .binder))
      (body : Tree .block) : Tree .function
  | exprBody (value : Tree .expr) : Tree .arrowBody
  | blockBody (body : Tree .block) : Tree .arrowBody
  | classDef (name : Tree (.option .name)) (heritage : Tree (.option .expr))
      (members : Tree (.list .member)) : Tree .classDef
  | method (kind : MethodKind) (isStatic : Bool) (key : Tree .key) (function : Tree .function) :
      Tree .member
  | field (isStatic : Bool) (key : Tree .key) (value : Tree (.option .expr)) : Tree .member
  | staticBlock (body : Tree .block) : Tree .member
  -- parts of statements
  | varDecl (kind : VarKind) (declarators : Tree (.list .declarator)) : Tree .varDecl
  | declarator (target : Tree .binder) (init : Tree (.option .expr)) : Tree .declarator
  | declHead (decl : Tree .varDecl) : Tree .forHead
  | exprHead (expr : Tree .expr) : Tree .forHead
  /-- A case of a switch; `default` has no test. -/
  | switchCase (test : Tree (.option .expr)) (body : Tree .block) : Tree .switchCase
  | handler (param : Tree (.option .binder)) (body : Tree .block) : Tree .handler
  -- statements
  | exprStmt (expr : Tree .expr) : Tree .stmt
  | varStmt (decl : Tree .varDecl) : Tree .stmt
  | functionStmt (function : Tree .function) : Tree .stmt
  | classStmt (definition : Tree .classDef) : Tree .stmt
  | blockStmt (body : Tree .block) : Tree .stmt
  | emptyStmt : Tree .stmt
  | ifStmt (test : Tree .expr) (consequent : Tree .body) (alternate : Tree (.option .body)) : Tree .stmt
  | forStmt (init : Tree (.option .forHead)) (test update : Tree (.option .expr)) (body : Tree .body) :
      Tree .stmt
  | forIn (left : Tree .forHead) (right : Tree .expr) (body : Tree .body) : Tree .stmt
  | forOf (isAwait : Bool) (left : Tree .forHead) (right : Tree .expr) (body : Tree .body) : Tree .stmt
  | whileStmt (test : Tree .expr) (body : Tree .body) : Tree .stmt
  | doWhile (test : Tree .expr) (body : Tree .body) : Tree .stmt
  | returnStmt (value : Tree (.option .expr)) : Tree .stmt
  | throwStmt (value : Tree .expr) : Tree .stmt
  | breakStmt (label : Option String) : Tree .stmt
  | continueStmt (label : Option String) : Tree .stmt
  | labeled (label : String) (body : Tree .body) : Tree .stmt
  | switchStmt (discriminant : Tree .expr) (cases : Tree (.list .switchCase)) : Tree .stmt
  | tryStmt (block : Tree .block) (handler : Tree (.option .handler)) (finalizer : Tree (.option .block)) :
      Tree .stmt
  | debugger : Tree .stmt
  /-- A comment with its delimiters. -/
  | comment (text : String) : Tree .stmt
  /-- Several statements standing for one, until they are spliced into the list around them. -/
  | sequence (body : Tree .block) : Tree .stmt
  /-- A hole for a statement, or with `multiLine` only for a compound one. -/
  | stmtHole (index : Nat) (multiLine : Bool) : Tree .stmt
  -- positions
  | stmts (items : Tree (.list .stmt)) : Tree .block
  | body (stmt : Tree .stmt) : Tree .body
  -- lists and optional parts
  | nil {c : Category} : Tree (.list c)
  | cons {c : Category} (head : Tree c) (tail : Tree (.list c)) : Tree (.list c)
  | none {c : Category} : Tree (.option c)
  | some {c : Category} (value : Tree c) : Tree (.option c)

abbrev Name := Tree .name
abbrev Expr := Tree .expr
abbrev Stmt := Tree .stmt
abbrev Block := Tree .block
abbrev VarDecl := Tree .varDecl

instance : Inhabited (Tree .expr) := ⟨.this⟩
instance : Inhabited (Tree .stmt) := ⟨.emptyStmt⟩
instance : Inhabited (Tree .block) := ⟨.stmts .nil⟩

namespace Tree

theorem list_injective {c d : Category} (h : Category.list c = .list d) : c = d := by
  cases h; rfl

/-- The items of a list phrase; the category of the items is given beforehand, which lets the
recursion run over phrases of every category. -/
def items : {k : Category} → Tree k → (c : Category) → k = .list c → List (Tree c)
  | _, cons h t, c, e => (list_injective e ▸ h) :: items t c e
  | _, _, _, _ => []

/-- The items of a list phrase. -/
def toList {c : Category} (t : Tree (.list c)) : List (Tree c) := items t c rfl

/-- The list phrase with given items. -/
def ofList {c : Category} : List (Tree c) → Tree (.list c)
  | [] => nil
  | t :: ts => cons t (ofList ts)

/-- The phrase an optional part holds. -/
def toOption {c : Category} : Tree (.option c) → Option (Tree c)
  | some t => Option.some t
  | _ => Option.none

/-- The optional part that holds a given phrase. -/
def ofOption {c : Category} : Option (Tree c) → Tree (.option c)
  | Option.some t => some t
  | Option.none => none

/-- The statements of a statement list. -/
def statements (b : Block) : List Stmt :=
  match b with
  | stmts items => items.toList

/-- The statement list with given statements. -/
def blockOf (ss : List Stmt) : Block := stmts (ofList ss)

/-- The statement of a body. -/
def bodyStmt (b : Tree .body) : Stmt :=
  match b with
  | body s => s

@[simp] theorem toList_nil {c : Category} : (nil : Tree (.list c)).toList = [] := rfl

@[simp] theorem toList_cons {c : Category} (h : Tree c) (t : Tree (.list c)) :
    (cons h t).toList = h :: t.toList := rfl

@[simp] theorem toList_ofList {c : Category} (ts : List (Tree c)) : (ofList ts).toList = ts := by
  induction ts with
  | nil => rfl
  | cons t ts ih => simp [ofList, ih]

@[simp] theorem toOption_ofOption {c : Category} (t : Option (Tree c)) : (ofOption t).toOption = t := by
  cases t <;> rfl

@[simp] theorem statements_blockOf (ss : List Stmt) : (blockOf ss).statements = ss := by
  simp [statements, blockOf]

/-- The text of an identifier; a hole has none. -/
def nameText? : Name → Option String
  | ident text _ => Option.some text
  | _ => Option.none

/-- The position of an identifier, when it was read from a source. -/
def nameId? : Name → Option Nat
  | ident _ id => id
  | _ => Option.none

end Tree

/-- A whole program. -/
structure Program where
  body : Block
deriving Inhabited

end Unminify
