import Unminify.Grammar.Parser

/-!
# Automatic semicolons

Where a statement may end without a semicolon. Looking from the end of the last token, a semicolon
is supplied at the end of the input, before a closing brace, and across a line break unless the next
line goes on with something that can only continue the statement.

Comments in the gap take part. A block comment on one line is looked through. A line comment hides
the line break behind it, so after an expression it is first taken into the statement and the gap is
looked at again from its end; after a word that no operator may follow (`afterExpression` false) a
semicolon is supplied in front of it.
-/

namespace Unminify.Grammar

open Character

/-- What a look through leading comments ends with. -/
inductive CommentScan
  | rejected
  | accepted
  | sameLine
deriving DecidableEq

/-- Looks through comments at the start of a gap, down to the pieces behind them. A block comment
ends the look unless another comment follows it at once. -/
def scanComments (next : List Char) : Bool → List Piece → CommentScan × List Piece
  | _, [] => (if next.head? == some '/' then .rejected else .accepted, [])
  | broken, .blank _ :: ps => scanComments next broken ps
  | broken, .lineComment _ :: ps => scanComments next broken ps
  | broken, .blockComment _ b :: ps =>
    let goesOn : Bool :=
      match ps with
      | [] => next.head? == some '/'
      | .blank _ :: _ => false
      | _ => true
    if goesOn then scanComments next (broken || b) ps
    else (if broken || b then .accepted else .sameLine, ps)

/-- Whether the text of a new line may start a statement, rather than only continue one. -/
def mayStartLine : List Char → Bool
  | [] => true
  | '.' :: cs => cs.head?.any Char.isDigit
  | '+' :: cs => cs.head? = some '+'
  | '-' :: cs => cs.head? = some '-'
  | '!' :: cs => cs.head? != some '='
  | 'i' :: 'n' :: cs =>
    if !cs.head?.any Char.isAlpha then false
    else
      match after? "stanceof".toList cs with
      | some rest => rest.head?.any Char.isAlpha
      | none => true
  | c :: _ => !"\x60,:;*%><=[(?^|&/".toList.contains c

/-- Whether a semicolon is supplied in front of a gap, looking through at most `rounds` pieces. -/
def suppliesWithin (afterExpression : Bool) (next : List Char) : Nat → List Piece → Bool
  | 0, _ => false
  | _, [] => next.isEmpty || next.head? == some '\x7d'
  | _, .blank true :: _ => mayStartLine next
  | n + 1, .blank false :: ps => suppliesWithin afterExpression next n ps
  | n + 1, ps =>
    let (outcome, behind) := scanComments next false ps
    let lookahead := if behind.isEmpty then next.head? else none
    if outcome = .rejected then false
    else if outcome = .accepted && !afterExpression && lookahead != some ',' && lookahead != some '='
    then true
    else
      match behind with
      | [] => next.head? == some '\x7d'
      | behind => suppliesWithin afterExpression next n behind

/-- Whether a semicolon is supplied in front of a gap. -/
def suppliesSemicolon (afterExpression : Bool) (next : List Char) (gap : List Piece) : Bool :=
  suppliesWithin afterExpression next (gap.length + 1) gap

/-- Whether a semicolon is supplied behind one of the comments of a gap. -/
def suppliesBehind (afterExpression : Bool) (next : List Char) : List Piece → Bool
  | [] => false
  | p :: ps =>
    (p.comment?.isSome && suppliesSemicolon afterExpression next ps) ||
      suppliesBehind afterExpression next ps

namespace Parser

/-- Whether a semicolon is supplied in front of the gap before the token of look-ahead. -/
def endsHere (afterExpression : Bool) : Parser Bool := do
  let s := (← get).next
  return s.token != .unknown && suppliesSemicolon afterExpression s.here s.gap

/-- Whether a semicolon would be supplied somewhere before the token of look-ahead: in front of its
gap or behind one of the comments there. -/
def atSemicolon (afterExpression : Bool) : Parser Bool := do
  let s := (← get).next
  return s.token != .unknown &&
    (suppliesSemicolon afterExpression s.here s.gap || suppliesBehind afterExpression s.here s.gap)

/-- Ends a statement, and says whether by a written semicolon. Comments that stand before the end are
put among the loose ones. -/
def semicolon (afterExpression : Bool) : Parser Bool :=
  repeatFrom none (fun _ => do
    if ← endsHere afterExpression then return (some false, false)
    else
      let s ← get
      match s.next.gap.dropWhile (·.comment?.isNone) with
      | p :: ps =>
        set { s with
          next := { s.next with gap := ps }
          loose := p.comment?.toList ++ s.loose
          passed := p.comment?.toList ++ s.passed }
        return (none, true)
      | [] =>
        mark ";"
        return (some true, false)) >>= fun ended => return ended.getD true

end Parser

end Unminify.Grammar
