import Unminify.Syntax.Kind
import Unminify.Syntax.Walk

/-!
# Traces of walks

What a walk over a tree meets, in order. The phrases that count are those a pass can act on:
statement lists, statements, governed bodies, expressions, binding patterns, identifiers, functions
and classes.
-/

namespace Unminify

/-- A phrase met by a walk. -/
inductive Step
  | list (length : Nat)
  | stmt (kind : StmtKind)
  | body
  | expr (phrase : Expr)
  | binder
  | name (phrase : Name)
  | function
  | classDef

namespace Tree

/-- What meeting a phrase counts as. -/
def step? : (c : Category) → Tree c → Option Step
  | .block, t => Option.some (.list t.statements.length)
  | .stmt, t => Option.some (.stmt t.kind)
  | .body, _ => Option.some .body
  | .expr, t => Option.some (.expr t)
  | .binder, _ => Option.some .binder
  | .name, t => Option.some (.name t)
  | .function, _ => Option.some .function
  | .classDef, _ => Option.some .classDef
  | _, _ => Option.none

/-- What a walk over a phrase meets, in order. -/
def trace {c : Category} (t : Tree c) : List Step :=
  let hook : Hook (StateM (List Step)) := fun c t walk => do
    modify ((step? c t).toList ++ ·)
    walk ()
  ((t.visit hook).run []).2.reverse

/-- The identifiers that a walk over a phrase meets, in order. -/
def idents {c : Category} (t : Tree c) : List Name :=
  t.trace.filterMap fun
    | .name found => Option.some found
    | _ => Option.none

end Tree

end Unminify
