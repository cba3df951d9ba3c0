import Unminify.Pattern.Hole
import Unminify.Syntax.Same

/-!
# Environments

What the holes of a pattern stand for. Binding a hole that is bound already asks for the same value,
identifiers being compared by their text only; the value bound first is kept.
-/

namespace Unminify

/-- What a hole is bound to. -/
inductive Bound
  | name (value : Name)
  | stmt (value : Stmt)
  | expr (value : Expr)
  /-- The declaration in the head of a loop. -/
  | decl (value : VarDecl)

/-- Sameness of bound values. -/
def Bound.same : Bound → Bound → Bool
  | name a, name b => a.same b
  | stmt a, stmt b => a.same b
  | expr a, expr b => a.same b
  | decl a, decl b => a.same b
  | _, _ => false

/-- The bindings of some holes, in the order in which they were made. -/
structure Environment where
  entries : List (Hole × Bound) := []
deriving Inhabited

namespace Environment

/-- What a hole is bound to. -/
def get? (env : Environment) (h : Hole) : Option Bound := env.entries.lookup h

/-- Binds a hole, unless it is bound already. -/
def insert (env : Environment) (h : Hole) (value : Bound) : Environment :=
  match env.get? h with
  | some _ => env
  | none => { entries := env.entries ++ [(h, value)] }

/-- Binds a hole, and says whether an earlier value agrees. -/
def bind (h : Hole) (value : Bound) : StateM Environment Bool := do
  match (← get).get? h with
  | some earlier => return earlier.same value
  | none =>
    modify (·.insert h value)
    return true

/-- The number of bound holes. -/
def size (env : Environment) : Nat := env.entries.length

/-- The bindings in the order of their holes. -/
def toList (env : Environment) : List (Hole × Bound) :=
  env.entries.mergeSort fun a b => a.1.le b.1

end Environment

end Unminify
