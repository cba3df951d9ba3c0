import Unminify.Pass.Splice
import Unminify.Pass.Stats
import Unminify.Rule.Table
import Unminify.Scope.Analysis
import Unminify.Scope.Rename

/-!
# Passes

A pass walks a program once and applies a table of rules on the way.

* At a statement list, rules that span several statements are tried at each position from left to
  right; then the members are walked, and sequences are spliced into the list.
* At a statement, a comma expression is split into one statement for each of its parts; any other
  statement is given to the first rule that matches it. The walk goes on into the result.
* At an expression, the first rule that matches is applied, and the walk goes on into the result.
* A sequence that is left as the body of an `if`, a loop or a label becomes a block.

A rule that replaces a function declaration by another one names it after the template, with a number
if the name is taken; the binding is renamed with it, and all identifiers that stand for the binding
follow when the walk is over.

When a template cannot be filled the pass stops: what was not yet reached stays as it was.

A table may make replacements that it matches again inside, without end. The depth of a walk is
bounded in terms of the size of the program, and a walk that would go deeper is an error.
-/

namespace Unminify

/-- Why a pass stopped. -/
inductive PassError
  | fill (rule : String) (cause : FillError)
  /-- A function declaration has no binding. -/
  | undeclared (name : String)
  /-- The rules make replacements without end. -/
  | endless
deriving DecidableEq, Repr, Inhabited

/-- The wording of an error. -/
def PassError.message : PassError → String
  | fill rule cause => "rule \x60" ++ rule ++ "\x60 produced an incomplete replacement: " ++ cause.message
  | undeclared name => "no scope declares \x60" ++ name ++ "\x60"
  | endless => "the rules make replacements without end"

namespace Pass

/-- Where a pass stands. -/
structure State where
  graph : ScopeGraph
  stats : Stats := {}
  error : Option PassError := none

end Pass

abbrev Pass := StateM Pass.State

namespace Pass

/-- Stops the pass; the first reason counts. -/
def fail (e : PassError) : Pass Unit :=
  modify fun s => { s with error := s.error <|> some e }

/-- Whether the pass has stopped. -/
def stopped : Pass Bool := return (← get).error.isSome

/-- Changes what the pass did so far. -/
def count (f : Stats → Stats) : Pass Unit := modify fun s => { s with stats := f s.stats }

/-- Notes that a rule was applied. -/
def record (r : Rule) : Pass Unit := count fun s => { s with applied := s.applied ++ [r.name] }

/-! ## Rules for statement lists -/

/-- A rule that matches the front of a statement list. -/
structure WindowMatch where
  rule : Rule
  length : Nat
  outcome : Except FillError Stmt

/-- The first rule whose window fits and matches at the front of a statement list. -/
def windowAt? (table : RuleTable) (ss : List Stmt) : Option WindowMatch :=
  table.rules.findSome? fun rule => do
    let length ← rule.window?
    if ss.length < length then none
    else return { rule, length, outcome := ← rule.applyToList? table.options (ss.take length) }

/-- The members of a sequence, or a statement alone. -/
def members : Stmt → List Stmt
  | .sequence inner => inner.statements
  | s => [s]

/-- Applies the rules for statement lists, from left to right. Statements that a rule put in are not
looked at again, and a replacement that is the same as its window is no change. -/
def sweep (table : RuleTable) (ss : List Stmt) : Pass (List Stmt) := do
  match ss with
  | [] => return []
  | s :: rest =>
    match windowAt? table (s :: rest) with
    | none => return s :: (← sweep table rest)
    | some m =>
      match m.outcome with
      | .error cause =>
        fail (.fill m.rule.name cause)
        return s :: rest
      | .ok replacement =>
        let new := members replacement
        if (Tree.ofList new).same (Tree.ofList ((s :: rest).take m.length)) then
          return s :: (← sweep table rest)
        else
          match m.length with
          | 0 =>
            fail .endless
            return s :: rest
          | n + 1 =>
            record m.rule
            return new ++ (← sweep table (rest.drop n))
termination_by ss.length
decreasing_by all_goals simp; try omega

/-! ## Rules for single statements and expressions -/

/-- The first rule that applies, and what comes of it. -/
def firstMatch? {α : Type} (table : RuleTable) (tryRule : Rule → Option (Except FillError α)) :
    Option (Rule × Except FillError α) :=
  table.rules.findSome? fun r => (tryRule r).map (r, ·)

/-- Gives a function that replaces another one a name that is free, and renames the binding of the
other to match. -/
def disambiguate (old new : Stmt) : Pass (Option Stmt) := do
  match old, new with
  | .functionStmt (.function _ _ (.some declared) _ _),
    .functionStmt (.function isAsync isGenerator (.some (.ident proposed _)) params body) =>
    let s ← get
    match declared.nameId?.bind fun id => (s.graph.bindingAt id).map (id, ·) with
    | none =>
      fail (.undeclared (declared.nameText?.getD ""))
      return none
    | some (id, b) =>
      let name := s.graph.freeName b proposed
      if !s.graph.isNamed name b then
        modify fun s => { s with graph := s.graph.rename b name }
        count fun s => { s with renamed := s.renamed + 1 }
      return some (.functionStmt
        (.function isAsync isGenerator (.some (.ident name (some id))) params body))
  | _, new => return some new

/-- Applies the first rule that matches a statement. -/
def applyToStmt (table : RuleTable) (s : Stmt) : Pass Stmt := do
  match firstMatch? table (·.applyToStmt? table.options s) with
  | none => return s
  | some (r, .error cause) =>
    fail (.fill r.name cause)
    return s
  | some (r, .ok replacement) =>
    match ← disambiguate s replacement with
    | none => return s
    | some replacement =>
      if replacement.same s then return s
      else
        record r
        return replacement

/-- Applies the first rule that matches an expression. -/
def applyToExpr (table : RuleTable) (e : Expr) : Pass Expr := do
  match firstMatch? table (·.applyToExpr? table.options e) with
  | none => return e
  | some (r, .error cause) =>
    fail (.fill r.name cause)
    return e
  | some (r, .ok replacement) =>
    if replacement.same e then return e
    else
      record r
      return replacement

/-- Splits a comma expression, or applies the first rule that matches. -/
def simplifyStmt (table : RuleTable) (s : Stmt) : Pass Stmt := do
  match s with
  | .exprStmt (.comma parts) =>
    count fun s => { s with split := s.split + 1 }
    return .sequence (Tree.blockOf (parts.toList.map .exprStmt))
  | s => applyToStmt table s

/-! ## The walk -/

/-- Whether a pass acts on phrases of a category; the phrases between them are walked in place. -/
def isActedOn : Category → Bool
  | .block | .stmt | .body | .expr => true
  | _ => false

/-- What a pass does at a phrase, given what it does at the phrases inside. -/
def visitWith (table : RuleTable) (hook : Tree.Hook Pass) : (c : Category) → Tree c → Pass (Tree c)
  | .block, t => do
    if ← stopped then return t
    else
      let swept ← sweep table t.statements
      let walked ← (Tree.blockOf swept).descend hook
      return Tree.blockOf (Tree.splice walked.statements)
  | .stmt, s => do
    if ← stopped then return s
    else (← simplifyStmt table s).descend hook
  | .body, b => do
    match ← b.descend hook with
    | .body (.sequence inner) =>
      count fun s => { s with coerced := s.coerced + 1 }
      return .body (.blockStmt inner)
    | other => return other
  | .expr, e => do
    if ← stopped then return e
    else (← applyToExpr table e).descend hook
  | _, t => t.descend hook

/-- Walks a phrase to a given depth. -/
def walk (table : RuleTable) : Nat → (c : Category) → Tree c → Pass (Tree c)
  | 0, _, t => do
    fail .endless
    return t
  | depth + 1, c, t =>
    visitWith table (fun c t inPlace => if isActedOn c then walk table depth c t else inPlace ()) c t

/-- How deep a pass over a phrase may go: for each phrase of it as many levels as the deepest of the
built-in templates has, and a margin for other templates. -/
def depthLimit {c : Category} (t : Tree c) : Nat := 24 * t.size + 10000

/-- What comes of a walk: the program after it, and what was done or why it stopped. Renames are
applied only if it did not stop. -/
def outcome : Block × State → Program × Except PassError Stats
  | (body, s) =>
    match s.error with
    | some e => (⟨body⟩, .error e)
    | none => (⟨(s.graph.applyRenames body).1⟩, .ok s.stats)

end Pass

namespace RuleTable

/-- One pass over a program. -/
def pass (table : RuleTable) (p : Program) : Program × Except PassError Stats :=
  Pass.outcome ((Pass.walk table (Pass.depthLimit p.body) .block p.body).run { graph := p.scopeGraph })

end RuleTable

end Unminify
