import Unminify.Grammar.Pattern

/-!
# Functions and classes

Functions, methods with their modifiers, and classes. A modifier word is a modifier only if a key
follows it; otherwise it is the key itself.
-/

namespace Unminify.Grammar

open Unminify.Grammar.Parser

/-- A parsed method. -/
structure Method where
  kind : MethodKind
  isStatic : Bool
  key : Reading (Tree .key)
  function : Reading (Tree .function)

/-- The modifiers of a method. -/
structure Modifiers where
  isStatic : Bool := false
  isAsync : Bool := false
  kind : MethodKind := .method
  isGenerator : Bool := false

namespace Modifiers

/-- Every combination, longer ones before shorter ones. -/
def all : List Modifiers :=
  [true, false].flatMap fun isStatic =>
  [true, false].flatMap fun isAsync =>
  [(.getter, false), (.setter, false), (.method, true), (.method, false)].map fun (kind, isGenerator) =>
    { isStatic, isAsync, kind, isGenerator }

/-- Consumes the words of a combination. With `breakEnds`, a line break behind a word makes the word
a field of its own. -/
def parse (m : Modifiers) (breakEnds : Bool) : Parser Unit := do
  let modifier (text : String) : Parser Unit := do
    word text
    if breakEnds then require !(← atSemicolon false)
  let getter : Parser Unit := do
    -- a static getter may break its line behind `get`
    if m.isStatic && !m.isAsync then word "get" else modifier "get"
  if m.isStatic then modifier "static"
  if m.isAsync then modifier "async"
  match m.kind with
  | .getter => getter
  | .setter => modifier "set"
  | .method => if m.isGenerator then mark "*"

end Modifiers

variable (rules : Rules)

/-- A decorator, which leaves no trace in the tree but its comments. -/
def decorator : Parser Unit := leftOut do
  mark "@"
  if ← atMark "(" then
    mark "("
    discard (rules (.expressions .enclosed))
    mark ")"
  else
    discard name
    repeatFrom () fun _ => do
      if ← mark? "." then
        discard (accept fun
          | .word text | .privateName text => some text
          | _ => none)
        return ((), true)
      else return ((), false)
    if ← mark? "(" then discard (elements ")" (rules (.expression .enclosed)))

/-- Any number of decorators. -/
def decorators : Parser Unit :=
  repeatFrom () fun _ => do
    if ← atMark "@" then
      decorator rules
      return ((), true)
    else return ((), false)

/-- The parameters and the body of a function. -/
def functionRest (isAsync isGenerator : Bool) (name : Tree (.option .name)) :
    Parser (Reading (Tree .function)) := do
  let params ← parameters rules
  let body ← rules .block
  return do return .function isAsync isGenerator name (.ofList (← params)) (← body)

/-- A method. -/
def method (breakEnds : Bool) : Parser Method := do
  decorators rules
  let attempt (m : Modifiers) : Parser (Modifiers × Reading (Tree .key)) := do
    m.parse breakEnds
    let key ← propertyKey rules
    require (← atMark "(")
    return (m, key)
  let (m, key) ← Modifiers.all.foldr (fun m other => attempt m <|> other) failure
  let fn ← functionRest rules m.isAsync m.isGenerator .none
  return { kind := m.kind, isStatic := m.isStatic, key, function := fn }

/-- A function with its keyword. The name may be left out unless `named` is set. -/
def keywordFunction (named : Bool) : Parser (Reading (Tree .function)) := do
  let isAsync ← word? "async"
  word "function"
  let isGenerator ← mark? "*"
  let name ← if named then some <$> identifier else perhaps identifier
  functionRest rules isAsync isGenerator (.ofOption name)

/-- A member of a class, or nothing for a semicolon on its own. -/
def classMember : Parser (Option (Reading (Tree .member))) := do
  let semicolonOnly : Parser (Option (Reading (Tree .member))) := do
    mark ";"
    return none
  let staticBlock : Parser (Option (Reading (Tree .member))) := do
    word "static"
    let body ← rules .block
    return some (.staticBlock <$> body)
  let asMethod : Parser (Option (Reading (Tree .member))) := do
    let m ← method rules true
    discard (mark? ";")
    return some do return .method m.kind m.isStatic (← m.key) (← m.function)
  let fieldWith (isStatic : Bool) : Parser (Option (Reading (Tree .member))) := do
    decorators rules
    if isStatic then
      word "static"
      require !(← atSemicolon false)
    let key ← propertyKey rules
    let value ← perhaps do
      mark "="
      rules (.expression .final)
    discard (semicolon value.isSome)
    return some do
      let value ← match value with
        | some e => some <$> e
        | none => pure none
      return .field isStatic (← key) (.ofOption value)
  semicolonOnly <|> staticBlock <|> asMethod <|> fieldWith true <|> fieldWith false

/-- A class from its name on. -/
def classRest : Parser (Reading (Tree .classDef)) := do
  let name ← perhaps identifier
  let heritage ← perhaps do
    word "extends"
    rules (.expression .enclosed)
  mark "\x7b"
  let members ← repeatFrom ([] : List (Reading (Tree .member))) fun acc => do
    if ← mark? "\x7d" then return (acc, false)
    else
      let m ← classMember rules
      return (m.toList ++ acc, true)
  return do
    let heritage ← match heritage with
      | some e => some <$> e
      | none => pure none
    return .classDef (.ofOption name) (.ofOption heritage) (.ofList (← readAll members.reverse))

end Unminify.Grammar
