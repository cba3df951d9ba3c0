import Unminify.Grammar.Token
import Unminify.Syntax.Tree

/-!
# Parsers

A parser consumes tokens of a source and yields a result, or fails; failing means that the text is
not of the form the parser stands for, and another form may be tried at the same place.

Parsing and reading are kept apart. Some phrases are well formed but have no tree, and of several of
them the first in reading order is reported, which is not always the first in the text. So parsers of
phrases yield a `Reading`: a tree, or the reason why there is none. A text that is not well formed
anywhere has no reading at all.

The state keeps one token of look-ahead. Comments in front of it are not yet placed: consuming the
token puts them among the loose comments of the statement being parsed, which go before that
statement in its list, while a statement list takes them as statements of its own.
-/

namespace Unminify

/-- Why a source text has no tree. -/
inductive ReadError
  /-- The text is not well formed. -/
  | malformed
  /-- A well-formed phrase that trees do not cover: what was expected, the form found instead, and
  the beginning of its text. -/
  | unsupported (what form snippet : String)
  /-- A keyword other than the expected ones. -/
  | unexpected (expected got : String)
deriving DecidableEq, Repr, Inhabited

/-- The wording of an error. -/
def ReadError.message : ReadError → String
  | malformed => "parse error: syntax error"
  | unsupported what form snippet => "unsupported syntax: " ++ what ++ " '" ++ form ++ "': " ++ snippet
  | unexpected expected got => "expected " ++ expected ++ ", got " ++ got

/-- The outcome of reading a well-formed phrase. -/
abbrev Reading := Except ReadError

namespace Grammar

/-- Where a parser stands. -/
structure State where
  /-- The token of look-ahead; comments already placed are removed from its gap. -/
  next : Lexeme
  /-- The byte offset at which the last consumed token ended. -/
  last : Nat
  /-- Comments inside the statement being parsed that no inner list has taken, latest first. -/
  loose : List String
  /-- All comments that were met up to the look-ahead and are no longer in its gap, latest first. -/
  passed : List String := []
deriving Inhabited

abbrev Parser := StateT State Option

/-- The comments of a gap. -/
def commentsOf (gap : List Piece) : List String := gap.filterMap Piece.comment?

namespace Parser

/-- The token of look-ahead. -/
def peek : Parser Token := return (← get).next.token

/-- Goes on from a given place of the source, as if a token had just ended there. -/
def resumeAt (position : Nat) (source : List Char) : Parser Unit :=
  modify fun s =>
    let comments := (commentsOf s.next.gap).reverse
    { next := Lexeme.next position source, last := position,
      loose := comments ++ s.loose, passed := comments ++ s.passed }

/-- Consumes the token of look-ahead, if there is one. -/
def advance : Parser Unit := do
  let s ← get
  match s.next.token with
  | .endOfInput | .unknown => failure
  | _ => resumeAt s.next.stop s.next.rest

/-- Consumes a token for which `f` has a result. -/
def accept {α : Type} (f : Token → Option α) : Parser α := do
  match f (← peek) with
  | some a => advance; return a
  | none => failure

/-- Whether the token of look-ahead is a given mark. -/
def atMark (text : String) : Parser Bool := return (← peek) == .mark text

/-- Whether the token of look-ahead is a given word. -/
def atWord (text : String) : Parser Bool := return (← peek) == .word text

/-- Consumes a given mark. -/
def mark (text : String) : Parser Unit := do
  if ← atMark text then advance else failure

/-- Consumes a given word. -/
def word (text : String) : Parser Unit := do
  if ← atWord text then advance else failure

/-- Consumes a given mark if it is there, and says whether it was. -/
def mark? (text : String) : Parser Bool := do
  if ← atMark text then advance; return true else return false

/-- Consumes a given word if it is there, and says whether it was. -/
def word? (text : String) : Parser Bool := do
  if ← atWord text then advance; return true else return false

/-- Succeeds with what a parser yields, or without consuming anything. -/
def perhaps {α : Type} (p : Parser α) : Parser (Option α) :=
  some <$> p <|> pure none

/-- Whether a parser would succeed here; nothing is consumed. -/
def foresees {α : Type} (p : Parser α) : Parser Bool := do
  let s ← get
  let found ← perhaps p
  set s
  return found.isSome

/-- Fails unless a condition holds. -/
def require (condition : Bool) : Parser Unit := if condition then pure () else failure

/-- Repeats a step that turns one accumulated value into the next, until the step says it is done or
`bound` steps were made. -/
def loop {σ : Type} (step : σ → Parser (σ × Bool)) : Nat → σ → Parser σ
  | 0, _ => failure
  | n + 1, acc => do
    let (acc, more) ← step acc
    if more then loop step n acc else return acc

/-- Repeats a step; every round consumes part of the source, which bounds their number. -/
def repeatFrom {σ : Type} (init : σ) (step : σ → Parser (σ × Bool)) : Parser σ := do
  loop step ((← get).next.here.length + 2) init

/-- Runs a parser with no loose comments and gives back the ones it left, in source order; the
enclosing statement's own are kept. -/
def collectLoose {α : Type} (p : Parser α) : Parser (α × List String) := do
  let outer := (← get).loose
  modify ({ · with loose := [] })
  let a ← p
  let inner := (← get).loose
  modify ({ · with loose := outer })
  return (a, inner.reverse)

/-- Runs the parser of a phrase that has no place in the tree. No list inside it takes comments: all
that it holds are loose. -/
def leftOut {α : Type} (p : Parser α) : Parser Unit := do
  let s ← get
  discard p
  modify fun t => { t with loose := t.passed.take (t.passed.length - s.passed.length) ++ s.loose }

/-- Takes the comments in front of the token of look-ahead. -/
def takeLead : Parser (List String) := do
  let s ← get
  let comments := commentsOf s.next.gap
  set { s with next := { s.next with gap := [] }, passed := comments.reverse ++ s.passed }
  return comments

/-- The beginning of the source text from a place to the end of the last consumed token. -/
def snippetFrom (start : Nat) (source : List Char) : Parser String := do
  let stop := (← get).last
  let rec within (at_ : Nat) : Nat → List Char → List Char
    | n + 1, c :: cs => if at_ < stop then c :: within (at_ + c.utf8Size) n cs else []
    | _, _ => []
  return String.ofList (within start 40 source)

/-- Parses a phrase that has no tree, and says so: what was expected, and the form found. -/
def unsupported (what form : String) (phrase : Parser Unit) : Parser ReadError := do
  let s := (← get).next
  phrase
  return .unsupported what form (← snippetFrom s.start s.here)

end Parser

end Grammar

end Unminify
