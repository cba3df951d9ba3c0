import Unminify.Grammar.Nonterminal

/-!
# Regular expressions and templates

Literals whose inside is not made of tokens. They are read from the source text itself; parsing then
goes on after them.
-/

namespace Unminify.Grammar

open Unminify.Grammar.Parser Character

/-- The inside of a bracketed class of a regular expression, up to and with its closing bracket. -/
def regexClass : List Char → Option (List Char × List Char)
  | [] => none
  | ']' :: cs => some ([']'], cs)
  | '\\' :: c :: cs =>
    if c == '\n' then none else (regexClass cs).map fun (more, rest) => ('\\' :: c :: more, rest)
  | c :: cs =>
    if c == '\n' || c == '\\' then none else (regexClass cs).map fun (more, rest) => (c :: more, rest)

/-- The pattern of a regular expression up to its closing slash, and the source after the slash. -/
def regexPattern : Nat → List Char → Option (List Char × List Char)
  | 0, _ => none
  | _, [] => none
  | _, '/' :: cs => some ([], cs)
  | n + 1, '\\' :: c :: cs =>
    if c == '\n' then none else (regexPattern n cs).map fun (more, rest) => ('\\' :: c :: more, rest)
  | n + 1, '[' :: cs => do
    let (inside, rest) ← regexClass cs
    let (more, rest) ← regexPattern n rest
    return ('[' :: inside ++ more, rest)
  | n + 1, c :: cs =>
    if c == '\n' || c == '\\' then none
    else (regexPattern n cs).map fun (more, rest) => (c :: more, rest)

/-- A regular expression. -/
def regex : Parser Expr := do
  let s := (← get).next
  require (s.token == .mark "/" || s.token == .mark "/=")
  match regexPattern s.here.length (s.here.drop 1) with
  | some (pattern, rest) =>
    require !pattern.isEmpty
    let isFlag (c : Char) : Bool := 'a' ≤ c && c ≤ 'z'
    let flags := rest.takeWhile isFlag
    resumeAt (s.start + 2 + byteLength pattern + flags.length) (rest.dropWhile isFlag)
    return .literal (.regex (String.ofList pattern) (String.ofList flags))
  | none => failure

/-- A chunk of a template up to a backtick or a substitution: the chunk, whether the template ends
there, and the source after the mark that ends the chunk. -/
def templateChunk : Nat → List Char → Option (List Char × Bool × List Char)
  | 0, _ => none
  | _, [] => none
  | _, '\x60' :: cs => some ([], true, cs)
  | _, '$' :: '\x7b' :: cs => some ([], false, cs)
  | n + 1, c :: cs =>
    if c == '\\' then do
      let (escape, rest) ← escapeAt? (c :: cs)
      let (more, rest) ← templateChunk n rest
      return (escape ++ more, rest)
    else do
      let (more, rest) ← templateChunk n cs
      return (c :: more, rest)

/-- A template: its chunks and its substitutions. -/
def template (rules : Rules) : Parser (List String × Reading (List Expr)) := do
  require (← atMark "\x60")
  let (chunks, substitutions) ← repeatFrom (([], []) : List String × List (Reading Expr))
    fun (chunks, substitutions) => do
      -- the look-ahead is the mark before a chunk
      let s := (← get).next
      require (s.token == .mark "\x60" || s.token == .mark "\x7d")
      match templateChunk s.here.length s.rest with
      | some (chunk, ends, rest) =>
        let chunks := String.ofList chunk :: chunks
        let position := s.stop + byteLength chunk
        if ends then
          resumeAt (position + 1) rest
          return ((chunks, substitutions), false)
        else
          resumeAt (position + 2) rest
          let e ← rules (.expressions .enclosed)
          require (← atMark "\x7d")
          return ((chunks, e :: substitutions), true)
      | none => failure
  return (chunks.reverse, readAll substitutions.reverse)

end Unminify.Grammar
