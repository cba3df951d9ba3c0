import Unminify.Grammar.Nonterminal

/-!
# Markup elements

Elements such as `<a b="c">text</a>` are well formed but have no tree. They are parsed only as far as
needed to find where they end. An element is parsed up to its final `>`: whether text or tokens
follow it is for the phrase around it to say.
-/

namespace Unminify.Grammar

open Unminify.Grammar.Parser Character

namespace Markup

/-- Consumes one character of the source, whatever token it is part of. -/
def char (c : Char) : Parser Unit := do
  let s := (← get).next
  require (s.here.head? == some c)
  resumeAt (s.start + 1) (s.here.drop 1)

/-- Consumes one character and the text behind it, up to the next tag or braces. -/
def charAndText (c : Char) : Parser Unit := do
  let s := (← get).next
  require (s.here.head? == some c)
  let isText (c : Char) : Bool := !"<>\x7b\x7d".toList.contains c
  let behind := s.here.drop 1
  resumeAt (s.start + 1 + byteLength (behind.takeWhile isText)) (behind.dropWhile isText)

/-- A tag or attribute name, which may hold hyphens, dots and a colon. -/
def tagName : Parser Unit := do
  let s := (← get).next
  require (s.here.head?.any isNameStart)
  let isPart (c : Char) : Bool := isNamePart c || "-.:".toList.contains c
  resumeAt (s.start + byteLength (s.here.takeWhile isPart)) (s.here.dropWhile isPart)

/-- Whether the source goes on with given characters. -/
def ahead (text : String) : Parser Bool := return (after? text.toList (← get).next.here).isSome

/-- A quoted attribute value; nothing in it is escaped. -/
def quoted : Parser Unit := do
  let s := (← get).next
  match s.here with
  | q :: cs =>
    require (q == '"' || q == '\x27')
    match cs.dropWhile (· != q) with
    | _ :: rest => resumeAt (s.start + 2 + byteLength (cs.takeWhile (· != q))) rest
    | [] => failure
  | [] => failure

/-- The inside of braces: an expression, a spread, or nothing; the closing brace is not consumed. -/
def braced (rules : Rules) : Parser Unit := do
  mark "\x7b"
  if ← atMark "\x7d" then return
  discard (mark? "...")
  discard (rules (.expressions .enclosed))
  require (← atMark "\x7d")

/-- An element in full. -/
def whole (rules : Rules) : Parser Unit := do
  discard (rules .markup)
  char '>'

/-- An attribute. -/
def tagAttribute (rules : Rules) : Parser Unit := do
  if ← atMark "\x7b" then
    braced rules
    mark "\x7d"
  else
    tagName
    if ← mark? "=" then
      if ← atMark "\x7b" then
        braced rules
        mark "\x7d"
      else if ← ahead "<" then whole rules
      else quoted

/-- The children of an element and its closing tag up to the final `>`. The look-ahead is the `>` of
the opening tag. -/
def childrenAndClosing (rules : Rules) : Parser Unit := do
  charAndText '>'
  repeatFrom () fun _ => do
    if ← ahead "\x7b" then
      braced rules
      charAndText '\x7d'
      return ((), true)
    else
      let isClosing ← foresees do
        char '<'
        char '/'
      if isClosing then
        char '<'
        char '/'
        if !(← ahead ">") then tagName
        require (← ahead ">")
        return ((), false)
      else
        discard (rules .markup)
        charAndText '>'
        return ((), true)

end Markup

/-- A markup element up to its final `>`. -/
def markup (rules : Rules) : Parser String := do
  Markup.char '<'
  if !(← Markup.ahead ">") then
    Markup.tagName
    repeatFrom () fun _ => do
      if (← Markup.ahead ">") || (← Markup.ahead "/") then return ((), false)
      else
        Markup.tagAttribute rules
        return ((), true)
  if ← Markup.ahead "/" then
    Markup.char '/'
    require (← Markup.ahead ">")
    return "jsx_self_closing_element"
  else
    Markup.childrenAndClosing rules
    return "jsx_element"

end Unminify.Grammar
