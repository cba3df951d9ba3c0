import Unminify.Syntax.Tree

/-!
# Holes

A pattern is a tree with holes. Holes come in three families, for names, statements and expressions,
and are numbered within their family. In the text of a pattern a hole is written as an identifier:
the word of its family followed by its number.
-/

namespace Unminify

/-- What a hole stands for. -/
inductive HoleFamily
  /-- An identifier. -/
  | generic
  | statement
  | expression
deriving DecidableEq, Repr, Inhabited

/-- The word that introduces the holes of a family. -/
def HoleFamily.word : HoleFamily → String
  | generic => "placeholder"
  | statement => "statement"
  | expression => "expression"

/-- A hole. -/
structure Hole where
  family : HoleFamily
  index : Nat
deriving DecidableEq, Repr, Inhabited

namespace Hole

/-- Holes of one family are ordered by number; generic holes come before statement holes, and those
before expression holes. -/
def le (a b : Hole) : Bool :=
  let rank : HoleFamily → Nat
    | .generic => 0
    | .statement => 1
    | .expression => 2
  rank a.family < rank b.family || (a.family = b.family && a.index ≤ b.index)

/-- The identifier a hole is written as. -/
def text (h : Hole) : String := h.family.word ++ toString h.index

/-- The number some digits denote, if it fits in 32 bits. -/
def index? (digits : List Char) : Option Nat :=
  if digits.isEmpty || !digits.all Char.isDigit then none
  else
    let n := digits.foldl (fun n c => n * 10 + (c.toNat - '0'.toNat)) 0
    if n < Nat.pow 2 32 then some n else none

/-- The rest of a text after a word it starts with. -/
def after? : List Char → List Char → Option (List Char)
  | [], cs => some cs
  | p :: ps, c :: cs => if p = c then after? ps cs else none
  | _ :: _, [] => none

/-- The hole an identifier is written for. -/
def ofText? (name : String) : Option Hole :=
  [HoleFamily.generic, .statement, .expression].findSome? fun family => do
    let index ← index? (← after? family.word.toList name.toList)
    return { family, index }

end Hole

end Unminify
