import Unminify.Scope.Graph
import Unminify.Syntax.Walk

/-!
# Applying renames

Gives the identifiers of a tree the names that their bindings have now. An identifier that is also a
property key, as in the shorthand `\x7b h \x7d`, is expanded first: the key keeps the declared name and the
value follows the binding.
-/

namespace Unminify.ScopeGraph

/-- The binding of an identifier, if it has been renamed. -/
def renamedBinding? (g : ScopeGraph) (ident : Name) : Option Binding := do
  let b ← g.bindings[← g.bindingAt (← ident.nameId?)]?
  if b.isRenamed then some b else none

/-- An identifier under the name its binding has now; counts the identifiers that change. -/
def renameIdent (g : ScopeGraph) (ident : Name) : StateM Nat Name := do
  match ident, g.renamedBinding? ident with
  | .ident text id, some b =>
    if text = b.name then return ident
    else
      modify (· + 1)
      return .ident b.name id
  | ident, _ => return ident

/-- What renaming does at a phrase. -/
def renameHook (g : ScopeGraph) : Tree.Hook (StateM Nat) := fun c t walk =>
  match c, t with
  | .name, ident => g.renameIdent ident
  | .property, .shorthand ident =>
    match g.renamedBinding? ident with
    | some b => do return .keyed (.nameKey b.declaredName) (.identExpr (← g.renameIdent ident))
    | none => walk ()
  | .binderProp, .shortBinder ident _ =>
    match g.renamedBinding? ident with
    | some b => do
      match ← walk () with
      | .shortBinder ident (.some value) =>
        return .keyedBinder (.nameKey b.declaredName) (.defaultBinder (.nameBinder ident) value)
      | .shortBinder ident .none => return .keyedBinder (.nameKey b.declaredName) (.nameBinder ident)
      | other => return other
    | none => walk ()
  | _, _ => walk ()

/-- A phrase in which every identifier has the name of its binding now, and how many identifiers
changed. -/
def applyRenames {c : Category} (g : ScopeGraph) (t : Tree c) : Tree c × Nat :=
  (t.visit g.renameHook).run 0

end Unminify.ScopeGraph
