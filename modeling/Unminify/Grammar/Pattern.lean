import Unminify.Grammar.Nonterminal
import Unminify.Number.Numeral
import Unminify.Text.Quoted

/-!
# Keys and patterns

Property keys and the rules for destructuring patterns. A pattern may hold any expression that can be
assigned to; read as a binding pattern, only names can be bound.
-/

namespace Unminify.Grammar

open Unminify.Grammar.Parser

/-- An object member of a pattern, in its two readings. -/
structure MemberTarget where
  asBinder : Reading (Tree .binderProp)
  asExpr : Reading (Tree .property)

variable (rules : Rules)

/-- A property key. -/
def propertyKey : Parser (Reading (Tree .key)) := do
  match ← peek with
  | .word text => advance; return .ok (.nameKey text)
  | .privateName text => advance; return .ok (.nameKey text)
  | .string quote inner => advance; return .ok (.stringKey (Quoted.content quote inner))
  | .number text =>
    advance
    match Numeral.read? text with
    | some (.number value) => return .ok (.numberKey value)
    | _ => return .error (.unsupported "property key" "number" (String.ofList (text.toList.take 40)))
  | .mark "[" =>
    advance
    let e ← rules (.expression .enclosed)
    mark "]"
    return .computedKey <$> e
  | _ => failure

/-- A pattern with an optional default value. -/
def patternWithDefault : Parser Target := do
  let p ← rules .pattern
  if ← mark? "=" then
    let value ← rules (.expression .enclosed)
    return {
      asBinder := .defaultBinder <$> p.asBinder <*> value
      asExpr := .assign .assign <$> p.asExpr <*> value }
  else return p

/-- An array pattern. -/
def arrayPattern : Parser Target := do
  mark "["
  let found ← elements "]" (patternWithDefault rules)
  let list {c : Category} (xs : List (Option (Tree c))) : Tree (.list (.option c)) :=
    .ofList (xs.map .ofOption)
  return {
    asBinder := do return .arrayBinder (list (← readElements (found.map fun t => t.map (·.asBinder))))
    asExpr := do return .array (list (← readElements (found.map fun t => t.map (·.asExpr)))) }

/-- A keyed member of an object pattern. -/
def keyedTarget : Parser MemberTarget := do
  let key ← propertyKey rules
  mark ":"
  let value ← patternWithDefault rules
  return {
    asBinder := .keyedBinder <$> key <*> value.asBinder
    asExpr := .keyed <$> key <*> value.asExpr }

/-- A shorthand member of an object pattern. -/
def shorthandTarget : Parser MemberTarget := do
  let (text, start) ← name
  let ident : Name := .ident text (some start)
  if ← mark? "=" then
    let value ← rules (.expression .enclosed)
    return {
      asBinder := do return .shortBinder ident (.some (← value))
      asExpr := do return .keyed (.nameKey text) (.assign .assign (.identExpr ident) (← value)) }
  else return { asBinder := .ok (.shortBinder ident .none), asExpr := .ok (.shorthand ident) }

/-- An object pattern, with the rule for nested destructuring given. -/
def objectPatternWith (nested : Parser Unit) : Parser Target := do
  mark "\x7b"
  let restTarget : Parser MemberTarget := do
    mark "..."
    let p ← rules .pattern
    return { asBinder := .restProp <$> p.asBinder, asExpr := .spreadProp <$> p.asExpr }
  -- a destructuring pattern with a default, but without a key
  let bareDefault : Parser MemberTarget := do
    let e ← unsupported "object pattern default" "object_assignment_pattern" do
      nested
      mark "="
      discard (rules (.expression .enclosed))
    return { asBinder := .error e, asExpr := .error e }
  let member := restTarget <|> keyedTarget rules <|> shorthandTarget rules <|> bareDefault
  let found := (← elements "\x7d" member).filterMap id
  return {
    asBinder := do return .objectBinder (.ofList (← readAll (found.map (·.asBinder))))
    asExpr := do return .object (.ofList (← readAll (found.map (·.asExpr)))) }

/-- An object pattern. -/
def objectPattern : Parser Target :=
  objectPatternWith rules do
    require ((← atMark "[") || (← atMark "\x7b"))
    discard (rules .pattern)

/-- An array or object pattern. -/
def destructuring : Parser Target := arrayPattern rules <|> objectPattern rules

/-- What a declaration declares: a name or a pattern. -/
def declaredTarget : Parser Target :=
  destructuring rules <|> do
    let ident ← identifier
    return { asBinder := .ok (.nameBinder ident), asExpr := .ok (.identExpr ident) }

/-- Parameters in parentheses. -/
def parameters : Parser (Reading (List (Tree .binder))) := do
  mark "("
  let found ← items ")" (patternWithDefault rules)
  return readAll (found.map (·.asBinder))

end Unminify.Grammar
