import Unminify.Rule.Basic

/-!
# Rule tables

An ordered table of rules with different names. Of the rules that match a phrase, the first in the
table is applied.
-/

namespace Unminify

/-- A table of rules, with the settings of the matcher. -/
structure RuleTable where
  rules : List Rule := []
  options : MatchOptions := {}
deriving Inhabited

namespace RuleTable

/-- The rule with a given name. -/
def get? (t : RuleTable) (name : String) : Option Rule := t.rules.find? (·.name == name)

/-- The names of all rules, in order. -/
def names (t : RuleTable) : List String := t.rules.map (·.name)

/-- The table with a rule behind all others. -/
def push (t : RuleTable) (r : Rule) : Except RuleError RuleTable :=
  match t.get? r.name with
  | some _ => .error (.duplicate r.name)
  | none => .ok { t with rules := t.rules ++ [r] }

/-- The table without a rule. -/
def disable (t : RuleTable) (name : String) : Except RuleError RuleTable :=
  match t.get? name with
  | some _ => .ok { t with rules := t.rules.filter (·.name != name) }
  | none => .error (.unknown name)

/-- The table with rules, as they are written, behind all others. -/
def pushSpecs (t : RuleTable) (specs : List RuleSpec) : Except RuleError RuleTable :=
  specs.foldlM (fun t spec => do t.push (← Rule.ofSpec spec)) t

/-- The table without some rules. -/
def disableAll (t : RuleTable) (names : List String) : Except RuleError RuleTable :=
  names.foldlM disable t

/-- The lines of a text, the first one after a given lead and the others indented. -/
def indented (lead text : String) : String :=
  match Text.lines text with
  | [] => ""
  | first :: rest => String.join (((lead ++ first) :: rest.map ("    " ++ ·)).map (· ++ "\n"))

/-- The table as text: for each rule its name, its pattern and its replacement. -/
def listing (t : RuleTable) : String :=
  String.join (t.rules.map fun r =>
    r.name ++ "\n" ++ indented "    " r.pattern.text ++ indented " => " r.replacement.text)

end RuleTable

end Unminify
