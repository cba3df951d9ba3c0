import Unminify.Rule.Builtin

/-!
# Settings

What can be configured: the bound on passes, rules to leave out, the kinds of statement that count as
compound, and rules of one's own. Settings come in layers; a later layer overrides the single values
of an earlier one and adds to its lists.
-/

namespace Unminify

/-- Settings, as given by one layer or by several merged. -/
structure Settings where
  maxPasses : Option Nat := none
  /-- Names of rules to leave out. -/
  disabled : List String := []
  compoundKinds : Option (List StmtKind) := none
  /-- Rules tried after the built-in ones. -/
  rules : List RuleSpec := []
deriving DecidableEq, Repr, Inhabited

namespace Settings

/-- A list with one more element at its end, unless the list has it already. -/
def addNew (names : List String) (name : String) : List String :=
  if names.contains name then names else names ++ [name]

/-- The settings with some more rules left out. -/
def disabling (s : Settings) (names : List String) : Settings :=
  { s with disabled := names.foldl addNew s.disabled }

/-- A layer of settings with another one on top of it. -/
def merge (s top : Settings) : Settings where
  maxPasses := top.maxPasses <|> s.maxPasses
  disabled := top.disabled.foldl addNew s.disabled
  compoundKinds := top.compoundKinds <|> s.compoundKinds
  rules := s.rules ++ top.rules

/-- The table of rules that settings ask for: the built-in rules and then the others, without the
disabled ones. -/
def table (s : Settings) : Except RuleError RuleTable := do
  let t ← RuleTable.builtin
  let t ← t.pushSpecs s.rules
  let t ← t.disableAll s.disabled
  return match s.compoundKinds with
    | some kinds => { t with options := { compoundKinds := kinds } }
    | none => t

end Settings

end Unminify
