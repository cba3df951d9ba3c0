import Unminify.Grammar.Statement

/-!
# Scripts

The grammar as a whole, and the reading of a source text. The rules refer to each other; `grammar n`
satisfies them for phrases nested at most `n` deep. A phrase consumes part of the source at every few
levels, so a multiple of the source's length is deep enough.

A byte order mark is skipped, though its bytes count. A first line that names an interpreter is kept
as a comment.
-/

namespace Unminify

namespace Grammar

open Unminify.Grammar.Parser

/-- The rules for phrases nested at most to a given depth. -/
def grammar : Nat → Rules
  | 0, _ => failure
  | n + 1, .expression ctx => expression (grammar n) ctx
  | n + 1, .expressions ctx => expressions (grammar n) ctx
  | n + 1, .operation ctx least => operation (grammar n) ctx least
  | n + 1, .operand ctx => operand (grammar n) ctx
  | n + 1, .pattern => pattern (grammar n)
  | n + 1, .statement => statement (grammar n)
  | n + 1, .block => block (grammar n)
  | n + 1, .classRest => classRest (grammar n)
  | n + 1, .markup => markup (grammar n)

/-- A parsed script. -/
structure Script where
  reading : Reading Block
  /-- The comments of the source, in order. -/
  comments : List String
  /-- Its last statement, comments apart, is an expression that ends in a written semicolon. -/
  endsInSemicolon : Bool

/-- The line that names an interpreter, if the source starts with one. It counts as a comment. -/
def interpreterLine : Parser String := do
  let s := (← get).next
  require (← Markup.ahead "#!")
  let isText (c : Char) : Bool := c != '\n'
  let text := s.here.takeWhile isText
  resumeAt (s.start + Character.byteLength text) (s.here.dropWhile isText)
  modify fun t => { t with passed := String.ofList text :: t.passed }
  return String.ofList text

/-- All statements of a source. -/
def script (rules : Rules) : Parser Script := do
  let lead ← takeLead
  let first ← perhaps interpreterLine
  let members := pushComments (lead ++ first.toList) []
  let (members, last) ← repeatFrom (members, none) fun ((members, last) : Members × Option Statement) => do
    let members := pushComments (← takeLead) members
    if (← peek) == .endOfInput then return ((members, last), false)
    else
      let (members, s) ← pushStatement rules members
      return ((members, some s), true)
  return {
    reading := blockOfMembers members
    comments := (← get).passed.reverse
    endsInSemicolon := last.any fun s => s.isExpression && s.isTerminated }

/-- Parses a source text. -/
def parse? (source : String) : Option Script :=
  let (offset, cs) :=
    match source.toList with
    | '\ufeff' :: cs => (3, cs)
    | cs => (0, cs)
  let start : State := { next := Lexeme.next offset cs, last := offset, loose := [] }
  (script (grammar (32 * (cs.length + 8)))).run' start

end Grammar

/-- Reads a source text. -/
def Program.read (source : String) : Except ReadError Program :=
  match Grammar.parse? source with
  | some script => Program.mk <$> script.reading
  | none => .error .malformed

/-- Whether the last statement of a source text, comments apart, is an expression that ends in a
written semicolon. -/
def endsInSemicolon (source : String) : Bool := (Grammar.parse? source).any (·.endsInSemicolon)

end Unminify
