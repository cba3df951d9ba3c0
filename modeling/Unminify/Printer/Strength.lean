import Unminify.Syntax.Tree

/-!
# Binding strength

How tightly each form of expression holds together, loosest first. The tree records no parentheses:
an expression is put in parentheses where it stands in a place that asks for more strength than it
has, and these functions decide where that is.
-/

namespace Unminify

/-- Binding strengths are ranks; a larger one binds tighter. -/
abbrev Strength := Nat

namespace Strength

def sequence : Strength := 1
def assignment : Strength := 2
def conditional : Strength := 3
def disjunction : Strength := 4
def conjunction : Strength := 5
def bitOr : Strength := 6
def bitXor : Strength := 7
def bitAnd : Strength := 8
def equality : Strength := 9
def relation : Strength := 10
def shift : Strength := 11
def additive : Strength := 12
def multiplicative : Strength := 13
def exponent : Strength := 14
def before : Strength := 15
def after : Strength := 16
def call : Strength := 17
def primary : Strength := 18

end Strength

/-- The strength of a binary operator. -/
def BinaryOp.strength : BinaryOp → Strength
  | or | nullish => Strength.disjunction
  | and => Strength.conjunction
  | bitOr => Strength.bitOr
  | bitXor => Strength.bitXor
  | bitAnd => Strength.bitAnd
  | looseEq | looseNe | eq | ne => Strength.equality
  | lt | le | gt | ge | .in | instanceOf => Strength.relation
  | shl | shr | ushr => Strength.shift
  | add | sub => Strength.additive
  | mul | div | mod => Strength.multiplicative
  | exp => Strength.exponent

/-- The strengths asked of the left and the right operand. Operators lean to the left, so an equally
strong right operand needs parentheses; the power operator leans to the right and does not take a
bare prefix operator on its left. -/
def BinaryOp.operandStrengths (op : BinaryOp) : Strength × Strength :=
  if op = .exp then (Strength.after, op.strength) else (op.strength, op.strength + 1)

/-- `??` and the logical operators do not mix without parentheses. -/
def BinaryOp.mixes (parent child : BinaryOp) : Bool :=
  let logical (op : BinaryOp) : Bool := op == .and || op == .or
  parent == .nullish && logical child || child == .nullish && logical parent

namespace Tree

/-- The strength of an expression. -/
def strength (e : Expr) : Strength :=
  match e with
  | comma _ => Strength.sequence
  | assign _ _ _ => Strength.assignment
  | arrow _ _ _ => Strength.assignment
  | yield _ _ => Strength.assignment
  | spread _ => Strength.assignment
  | conditional _ _ _ => Strength.conditional
  | binary op _ _ => op.strength
  | unary _ _ => Strength.before
  | await _ => Strength.before
  | update _ true _ => Strength.before
  | update _ false _ => Strength.after
  | call _ _ _ => Strength.call
  | new _ _ => Strength.call
  | access _ _ _ _ => Strength.call
  | tagged _ _ _ => Strength.call
  | _ => Strength.primary

/-- Whether a constructor expression contains a call, whose arguments `new` would take for its own. -/
def containsCall : {c : Category} → Tree c → Bool
  | _, call _ _ _ => true
  | _, access _ _ target _ => containsCall target
  | _, tagged _ tag _ => containsCall tag
  | _, _ => false

/-- Whether an `in` operator would stand bare if the expression were written in the head of a `for`
loop. Brackets of any kind hide it. -/
def showsIn : {c : Category} → Tree c → Bool
  | _, binary op left right => op == .in || showsIn left || showsIn right
  | _, assign _ target value => showsIn target || showsIn value
  | _, conditional test consequent alternate => showsIn test || showsIn consequent || showsIn alternate
  | _, comma parts => showsIn parts
  | _, unary _ arg => showsIn arg
  | _, await arg => showsIn arg
  | _, spread arg => showsIn arg
  | _, update _ _ arg => showsIn arg
  | _, yield _ arg => showsIn arg
  | _, access _ _ target _ => showsIn target
  | _, call _ callee _ => showsIn callee
  | _, new callee _ => showsIn callee
  | _, arrow _ _ inner => showsIn inner
  | _, exprBody value => showsIn value
  | _, cons head tail => showsIn head || showsIn tail
  | _, some value => showsIn value
  | _, _ => false

/-- Whether a statement ends in an `if` without `else`, which would take a following `else`. -/
def endsInOpenIf : {c : Category} → Tree c → Bool
  | _, ifStmt _ _ none => true
  | _, ifStmt _ _ (some alternate) => endsInOpenIf alternate
  | _, forStmt _ _ _ inner => endsInOpenIf inner
  | _, forIn _ _ inner => endsInOpenIf inner
  | _, forOf _ _ _ inner => endsInOpenIf inner
  | _, whileStmt _ inner => endsInOpenIf inner
  | _, labeled _ inner => endsInOpenIf inner
  | _, body inner => endsInOpenIf inner
  | _, _ => false

end Tree

end Unminify
