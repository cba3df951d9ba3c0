/-!
# Operators of the expression language

Four closed tables: unary, update, binary and assignment operators. Each operator has one spelling
(`text`), and `ofText?` finds the operator a spelling stands for. Looking a spelling up and spelling
an operator out are inverse to each other (`ofText?_text`, `text_of_ofText?`).
-/

namespace Unminify

/-- Operators written before one operand. -/
inductive UnaryOp
  | neg | plus | not | bitNot | typeOf | void | delete
deriving DecidableEq, Repr, Inhabited

/-- Increment and decrement, written before or after their operand. -/
inductive UpdateOp
  | increment | decrement
deriving DecidableEq, Repr, Inhabited

/-- Arithmetic, comparison and logical operators between two operands. -/
inductive BinaryOp
  | add | sub | mul | div | mod | exp
  | looseEq | looseNe | eq | ne | lt | le | gt | ge
  | shl | shr | ushr | bitAnd | bitOr | bitXor
  | in | instanceOf | and | or | nullish
deriving DecidableEq, Repr, Inhabited

/-- Plain assignment and the assignments that combine with an operator first. -/
inductive AssignOp
  | assign | add | sub | mul | div | mod | exp
  | shl | shr | ushr | bitAnd | bitOr | bitXor
  | and | or | nullish
deriving DecidableEq, Repr, Inhabited

namespace UnaryOp

/-- Every unary operator. -/
def all : List UnaryOp := [neg, plus, not, bitNot, typeOf, void, delete]

/-- The spelling of an operator. -/
def text : UnaryOp → String
  | neg => "-"
  | plus => "+"
  | not => "!"
  | bitNot => "~"
  | typeOf => "typeof"
  | void => "void"
  | delete => "delete"

/-- The operator a spelling stands for. -/
def ofText? (s : String) : Option UnaryOp := all.find? (·.text == s)

/-- Word operators stand apart from their operand. -/
def isKeyword : UnaryOp → Bool
  | typeOf | void | delete => true
  | _ => false

theorem ofText?_text (op : UnaryOp) : ofText? op.text = some op := by cases op <;> decide

theorem text_of_ofText? {s : String} {op : UnaryOp} (h : ofText? s = some op) : op.text = s := by
  simpa using List.find?_some h

end UnaryOp

namespace UpdateOp

/-- Both update operators. -/
def all : List UpdateOp := [increment, decrement]

/-- The spelling of an operator. -/
def text : UpdateOp → String
  | increment => "++"
  | decrement => "--"

/-- The operator a spelling stands for. -/
def ofText? (s : String) : Option UpdateOp := all.find? (·.text == s)

theorem ofText?_text (op : UpdateOp) : ofText? op.text = some op := by cases op <;> decide

theorem text_of_ofText? {s : String} {op : UpdateOp} (h : ofText? s = some op) : op.text = s := by
  simpa using List.find?_some h

end UpdateOp

namespace BinaryOp

/-- Every binary operator. -/
def all : List BinaryOp :=
  [add, sub, mul, div, mod, exp, looseEq, looseNe, eq, ne, lt, le, gt, ge,
    shl, shr, ushr, bitAnd, bitOr, bitXor, BinaryOp.in, instanceOf, and, or, nullish]

/-- The spelling of an operator. -/
def text : BinaryOp → String
  | add => "+"
  | sub => "-"
  | mul => "*"
  | div => "/"
  | mod => "%"
  | exp => "**"
  | looseEq => "=="
  | looseNe => "!="
  | eq => "==="
  | ne => "!=="
  | lt => "<"
  | le => "<="
  | gt => ">"
  | ge => ">="
  | shl => "<<"
  | shr => ">>"
  | ushr => ">>>"
  | bitAnd => "&"
  | bitOr => "|"
  | bitXor => "^"
  | .in => "in"
  | instanceOf => "instanceof"
  | and => "&&"
  | or => "||"
  | nullish => "??"

/-- The operator a spelling stands for. -/
def ofText? (s : String) : Option BinaryOp := all.find? (·.text == s)

/-- Operators that may leave their right operand unevaluated. -/
def isLogical : BinaryOp → Bool
  | and | or | nullish => true
  | _ => false

theorem ofText?_text (op : BinaryOp) : ofText? op.text = some op := by cases op <;> decide

theorem text_of_ofText? {s : String} {op : BinaryOp} (h : ofText? s = some op) : op.text = s := by
  simpa using List.find?_some h

end BinaryOp

namespace AssignOp

/-- Every assignment operator. -/
def all : List AssignOp :=
  [assign, add, sub, mul, div, mod, exp, shl, shr, ushr, bitAnd, bitOr, bitXor, and, or, nullish]

/-- The spelling of an operator. -/
def text : AssignOp → String
  | assign => "="
  | add => "+="
  | sub => "-="
  | mul => "*="
  | div => "/="
  | mod => "%="
  | exp => "**="
  | shl => "<<="
  | shr => ">>="
  | ushr => ">>>="
  | bitAnd => "&="
  | bitOr => "|="
  | bitXor => "^="
  | and => "&&="
  | or => "||="
  | nullish => "??="

/-- The operator a spelling stands for. -/
def ofText? (s : String) : Option AssignOp := all.find? (·.text == s)

theorem ofText?_text (op : AssignOp) : ofText? op.text = some op := by cases op <;> decide

theorem text_of_ofText? {s : String} {op : AssignOp} (h : ofText? s = some op) : op.text = s := by
  simpa using List.find?_some h

end AssignOp

end Unminify
