import Std.Data.TreeMap
import Std.Data.TreeSet
import Unminify.Syntax.Tree

/-!
# Scope graphs

The scopes of a program, the bindings declared in them, and the binding that each identifier stands
for. Scopes and bindings are numbered in the order of their creation; a scope's parent has a smaller
number than the scope itself, so looking a name up from the inside out ends.

A binding can be given another name. The graph then looks names up by the names as they are now,
while the tree keeps the declared names until renames are applied to it.
-/

namespace Unminify

/-- What opens a scope. -/
inductive ScopeKind
  | program | function | block | catchClause
  /-- The head of a loop. -/
  | loopHead
  | classBody
deriving DecidableEq, Repr, Inhabited

/-- What declares a binding. -/
inductive BindingKind
  | var | lexical | constant | function | classDef | param | catchParam
deriving DecidableEq, Repr, Inhabited

abbrev ScopeId := Nat
abbrev BindingId := Nat

/-- A scope. -/
structure Scope where
  kind : ScopeKind
  parent : Option ScopeId
  bindings : Array BindingId := #[]
deriving Repr, Inhabited

/-- A resolved use of a binding: the identifier's position and the scope it stands in. -/
structure Reference where
  id : Nat
  scope : ScopeId
deriving DecidableEq, Repr, Inhabited

/-- A binding. -/
structure Binding where
  /-- The name it has now. -/
  name : String
  /-- The name it was declared with. -/
  declaredName : String
  kind : BindingKind
  scope : ScopeId
  /-- The positions of the declaring identifiers. -/
  declarations : Array Nat := #[]
  references : Array Reference := #[]
deriving Repr, Inhabited

/-- Whether a binding has been given another name. -/
def Binding.isRenamed (b : Binding) : Bool := b.name != b.declaredName

/-- A scope graph. -/
structure ScopeGraph where
  scopes : Array Scope
  bindings : Array Binding := #[]
  /-- The binding of every identifier that declares or refers to one, by the identifier's position. -/
  occurrences : Std.TreeMap Nat BindingId := {}
  /-- Names that are referred to and declared nowhere. -/
  globals : Std.TreeSet String := {}
deriving Inhabited

namespace ScopeGraph

/-- The scope of the whole program. -/
def root : ScopeId := 0

/-- The graph of a program before anything is declared. -/
def empty : ScopeGraph := { scopes := #[{ kind := .program, parent := none }] }

/-- The binding an identifier stands for, by its position. -/
def bindingAt (g : ScopeGraph) (id : Nat) : Option BindingId := g.occurrences.get? id

/-- Whether a name is referred to without being declared. -/
def isGlobal (g : ScopeGraph) (name : String) : Bool := g.globals.contains name

/-- Whether a binding has a given name now. -/
def isNamed (g : ScopeGraph) (name : String) (b : BindingId) : Bool :=
  g.bindings[b]?.any (·.name == name)

/-- The binding of a name in one scope. -/
def findIn (g : ScopeGraph) (s : Scope) (name : String) : Option BindingId :=
  s.bindings.find? (g.isNamed name)

/-- The binding of a name, looked up from a scope outwards. -/
def lookup (g : ScopeGraph) (scope : ScopeId) (name : String) : Option BindingId :=
  match g.scopes[scope]? with
  | none => none
  | some s =>
    match g.findIn s name with
    | some b => some b
    | none =>
      match s.parent with
      | none => none
      | some p => if p < scope then g.lookup p name else none
termination_by scope

/-- Whether a binding can take a name without changing what any identifier stands for. It may always
keep its own name. Otherwise the name must not be a global one, nor be visible where the binding is
declared or where it is used. -/
def isNameFree (g : ScopeGraph) (b : BindingId) (name : String) : Bool :=
  match g.bindings[b]? with
  | none => false
  | some target =>
    target.name == name ||
      (!g.isGlobal name && (g.lookup target.scope name).isNone &&
        target.references.all fun r => (g.lookup r.scope name).isNone)

/-- A name with a number behind it. -/
def suffixed (name : String) (n : Nat) : String := name ++ toString n

/-- The first of `bound` numbered names from a number on that is free for a binding. -/
def freeNameFrom (g : ScopeGraph) (b : BindingId) (name : String) (n : Nat) : Nat → String
  | 0 => suffixed name n
  | bound + 1 =>
    if g.isNameFree b (suffixed name n) then suffixed name n else g.freeNameFrom b name (n + 1) bound

/-- The first of a name, the name with `1` behind it, with `2`, and so on that is free for a binding.
Only names of bindings and global names can be taken, which bounds the search. -/
def freeName (g : ScopeGraph) (b : BindingId) (name : String) : String :=
  if g.isNameFree b name then name else g.freeNameFrom b name 1 (g.bindings.size + g.globals.size)

/-- Gives a binding another name. -/
def rename (g : ScopeGraph) (b : BindingId) (name : String) : ScopeGraph :=
  { g with bindings := g.bindings.modify b ({ · with name }) }

end ScopeGraph

end Unminify
