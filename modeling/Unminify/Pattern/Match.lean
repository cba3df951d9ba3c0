import Unminify.Pattern.Basic
import Unminify.Pattern.Environment

/-!
# Matching

A pattern matches a tree when the two agree everywhere but at the pattern's holes. A hole is bound to
what it faces; a hole that occurs again must face the same. The first disagreement anywhere settles
that there is no match.
-/

namespace Unminify.Pattern

/-- What matching does where a pattern faces a phrase: holes are bound, all else is compared. -/
def matchHook (options : MatchOptions) : Tree.PairHook (StateM Environment) := fun c p n children =>
  match c, p, n with
  | .stmt, .stmtHole index multiLine, n =>
    if multiLine && !options.compoundKinds.contains n.kind then pure false
    else Environment.bind ⟨.statement, index⟩ (.stmt n)
  | .expr, .exprHole index _, n => Environment.bind ⟨.expression, index⟩ (.expr n)
  | .name, .nameHole index, .ident text id => Environment.bind ⟨.generic, index⟩ (.name (.ident text id))
  | .name, .nameHole _, _ => pure false
  | .forHead, .exprHead (.exprHole index true), .declHead decl =>
    Environment.bind ⟨.expression, index⟩ (.decl decl)
  | _, _, _ => children ()

/-- Matches a phrase of a pattern against a phrase, from an empty environment. -/
def matchTree {c : Category} (options : MatchOptions) (p n : Tree c) : Option Environment :=
  let (agrees, env) := (p.compare (matchHook options) n).run {}
  if agrees then some env else none

/-- Matches statement patterns against as many statements. -/
def matchList (options : MatchOptions) (ps ns : List Stmt) : Option Environment :=
  matchTree options (Tree.ofList ps) (Tree.ofList ns)

end Unminify.Pattern
