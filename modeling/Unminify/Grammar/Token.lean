import Unminify.Grammar.Character

/-!
# Tokens

`Lexeme.next` reads the next token of a source together with the gap before it. Whether `/` starts a
regular expression, how a template goes on, and where the text of a markup element ends is known to
the parser only; those are read by functions of their own, from the start of the token.

The gap keeps blanks and comments apart, because comments become statements and because line breaks
decide where a semicolon may be left out.
-/

namespace Unminify.Grammar

open Character

/-- Tokens. Keywords are words; which words are names is for the parser to say. -/
inductive Token
  | word (text : String)
  | privateName (text : String)
  | number (text : String)
  /-- A string literal: its quote and the text between the quotes. -/
  | string (quote : Char) (inner : List Char)
  | mark (text : String)
  | endOfInput
  /-- Text that is no token. -/
  | unknown
deriving DecidableEq, Repr, Inhabited

/-- What stands between two tokens. -/
inductive Piece
  | blank (breaksLine : Bool)
  | lineComment (text : String)
  | blockComment (text : String) (breaksLine : Bool)
deriving DecidableEq, Repr, Inhabited

/-- The text of a piece that is a comment. -/
def Piece.comment? : Piece → Option String
  | .blank _ => none
  | .lineComment text => some text
  | .blockComment text _ => some text

/-! ## Gaps -/

/-- Where a scan of a gap stands; the characters of an open comment are kept in reverse. -/
inductive GapMode
  | between
  | blanks (breaksLine : Bool)
  | lineComment (reversed : List Char)
  | blockComment (reversed : List Char)

/-- The pieces of a gap, the byte offset of its end, the source after it, and whether a comment
without an end left it open. -/
structure Gap where
  pieces : List Piece
  stop : Nat
  rest : List Char
  unclosed : Bool := false

/-- The gap with a piece put in front. -/
def Gap.push (p : Piece) (g : Gap) : Gap := { g with pieces := p :: g.pieces }

/-- The line comment spelled by reversed characters. -/
def linePiece (reversed : List Char) : Piece := .lineComment (String.ofList reversed.reverse)

/-- The block comment spelled by reversed characters. -/
def blockPiece (reversed : List Char) : Piece :=
  .blockComment (String.ofList reversed.reverse) (reversed.any breaksLine)

/-- Reads the gap of a source from a byte offset on. -/
def gapFrom : GapMode → Nat → List Char → Gap
  | .between, at_, [] => { pieces := [], stop := at_, rest := [] }
  | .between, at_, '/' :: '/' :: cs => gapFrom (.lineComment ['/', '/']) (at_ + 2) cs
  | .between, at_, '/' :: '*' :: cs => gapFrom (.blockComment ['*', '/']) (at_ + 2) cs
  | .between, at_, c :: cs =>
    if isBlank c then gapFrom (.blanks (breaksLine c)) (at_ + c.utf8Size) cs
    else { pieces := [], stop := at_, rest := c :: cs }
  | .blanks b, at_, [] => { pieces := [.blank b], stop := at_, rest := [] }
  | .blanks b, at_, '/' :: '/' :: cs =>
    (gapFrom (.lineComment ['/', '/']) (at_ + 2) cs).push (.blank b)
  | .blanks b, at_, '/' :: '*' :: cs =>
    (gapFrom (.blockComment ['*', '/']) (at_ + 2) cs).push (.blank b)
  | .blanks b, at_, c :: cs =>
    if isBlank c then gapFrom (.blanks (b || breaksLine c)) (at_ + c.utf8Size) cs
    else { pieces := [.blank b], stop := at_, rest := c :: cs }
  | .lineComment r, at_, [] => { pieces := [linePiece r], stop := at_, rest := [] }
  | .lineComment r, at_, c :: cs =>
    if endsLine c then (gapFrom (.blanks (breaksLine c)) (at_ + c.utf8Size) cs).push (linePiece r)
    else gapFrom (.lineComment (c :: r)) (at_ + c.utf8Size) cs
  | .blockComment _, at_, [] => { pieces := [], stop := at_, rest := [], unclosed := true }
  | .blockComment r, at_, '*' :: '/' :: cs =>
    (gapFrom .between (at_ + 2) cs).push (blockPiece ('/' :: '*' :: r))
  | .blockComment r, at_, c :: cs => gapFrom (.blockComment (c :: r)) (at_ + c.utf8Size) cs

/-! ## Names, numbers and strings -/

/-- A unicode escape in a name: `\u` with four hexadecimal digits, or with any number in braces. -/
def unicodeEscapeAt? : List Char → Option (List Char × List Char)
  | '\\' :: 'u' :: '\x7b' :: cs =>
    let digits := cs.takeWhile isHexDigit
    match cs.dropWhile isHexDigit with
    | '\x7d' :: rest =>
      if digits.isEmpty then none else some ('\\' :: 'u' :: '\x7b' :: digits ++ ['\x7d'], rest)
    | _ => none
  | '\\' :: 'u' :: a :: b :: c :: d :: rest =>
    if [a, b, c, d].all isHexDigit then some (['\\', 'u', a, b, c, d], rest) else none
  | _ => none

/-- The rest of a name, reading at most `fuel` parts. -/
def nameParts : Nat → List Char → List Char × List Char
  | 0, cs => ([], cs)
  | _, [] => ([], [])
  | n + 1, c :: cs =>
    if isNamePart c then let (more, rest) := nameParts n cs; (c :: more, rest)
    else
      match unicodeEscapeAt? (c :: cs) with
      | some (escape, rest) => let (more, rest) := nameParts n rest; (escape ++ more, rest)
      | none => ([], c :: cs)

/-- The name at the start of a source. -/
def nameAt? (cs : List Char) : Option (List Char × List Char) :=
  match cs with
  | c :: _ =>
    if isNameStart c || (unicodeEscapeAt? cs).isSome then some (nameParts cs.length cs) else none
  | [] => none

/-- A run of digits in which single underscores may separate digits. -/
def digitRun (isDigit : Char → Bool) : List Char → List Char × List Char
  | c :: '_' :: d :: cs =>
    if isDigit c then
      if isDigit d then let (more, rest) := digitRun isDigit (d :: cs); (c :: '_' :: more, rest)
      else ([c], '_' :: d :: cs)
    else ([], c :: '_' :: d :: cs)
  | c :: cs =>
    if isDigit c then let (more, rest) := digitRun isDigit cs; (c :: more, rest) else ([], c :: cs)
  | [] => ([], [])

/-- An exponent part, if there is one. -/
def exponentPart (cs : List Char) : List Char × List Char :=
  let signed (head : List Char) (rest : List Char) : List Char × List Char :=
    match digitRun Char.isDigit rest with
    | ([], _) => ([], cs)
    | (ds, rest) => (head ++ ds, rest)
  match cs with
  | e :: s :: rest =>
    if e == 'e' || e == 'E' then
      if s == '+' || s == '-' then signed [e, s] rest else signed [e] (s :: rest)
    else ([], cs)
  | _ => ([], cs)

/-- Digits that may be followed by a point or an exponent: no leading zero, or one leading zero
before a digit other than zero. -/
def startsDecimal : List Char → Bool
  | ['0'] => true
  | '0' :: d :: _ => '1' ≤ d && d ≤ '9'
  | d :: _ => '1' ≤ d && d ≤ '9'
  | [] => false

/-- The big-integer suffix, if there is one. -/
def bigIntSuffix (cs : List Char) : List Char × List Char :=
  match cs with
  | 'n' :: rest => (['n'], rest)
  | _ => ([], cs)

/-- The number at the start of a source: the longest one. -/
def numberAt? (cs : List Char) : Option (List Char × List Char) :=
  let radix (isDigit : Char → Bool) (head rest : List Char) : Option (List Char × List Char) :=
    match digitRun isDigit rest with
    | ([], _) => none
    | (ds, rest) => let (n, rest) := bigIntSuffix rest; some (head ++ ds ++ n, rest)
  let decimal : Option (List Char × List Char) :=
    match digitRun Char.isDigit cs with
    | ([], _) => none
    | (ds, rest) =>
      match startsDecimal ds, rest with
      | true, '.' :: rest =>
        let (places, rest) := digitRun Char.isDigit rest
        let (e, rest) := exponentPart rest
        some (ds ++ '.' :: places ++ e, rest)
      | starts, rest =>
        match if starts then exponentPart rest else ([], rest) with
        | ([], rest) => let (n, rest) := bigIntSuffix rest; some (ds ++ n, rest)
        | (e, rest) => some (ds ++ e, rest)
  match cs with
  | '.' :: rest =>
    match digitRun Char.isDigit rest with
    | ([], _) => none
    | (places, rest) => let (e, rest) := exponentPart rest; some ('.' :: places ++ e, rest)
  | '0' :: x :: rest =>
    if x == 'x' || x == 'X' then radix isHexDigit ['0', x] rest <|> decimal
    else if x == 'b' || x == 'B' then radix (fun c => c == '0' || c == '1') ['0', x] rest <|> decimal
    else if x == 'o' || x == 'O' then radix isOctalDigit ['0', x] rest <|> decimal
    else decimal
  | _ => decimal

/-- The escape sequence at the start of a source, which is a backslash. -/
def escapeAt? (cs : List Char) : Option (List Char × List Char) :=
  match cs with
  | '\\' :: 'u' :: _ => unicodeEscapeAt? cs
  | '\\' :: 'x' :: a :: b :: rest =>
    if isHexDigit a && isHexDigit b then some (['\\', 'x', a, b], rest) else none
  | '\\' :: '\r' :: '\n' :: rest => some (['\\', '\r', '\n'], rest)
  | '\\' :: c :: rest =>
    if c == 'x' then none
    else if isOctalDigit c then
      let more := (rest.take 2).takeWhile isOctalDigit
      some ('\\' :: c :: more, rest.drop more.length)
    else some (['\\', c], rest)
  | _ => none

/-- What stands up to the closing quote of a string, and the source after it. -/
def stringTail (quote : Char) : Nat → List Char → Option (List Char × List Char)
  | 0, _ => none
  | _, [] => none
  | n + 1, c :: cs =>
    if c == quote then some ([], cs)
    else if c == '\n' || c == '\r' then none
    else if c == '\\' then do
      let (escape, rest) ← escapeAt? (c :: cs)
      let (more, rest) ← stringTail quote n rest
      return (escape ++ more, rest)
    else do
      let (more, rest) ← stringTail quote n cs
      return (c :: more, rest)

/-! ## Marks -/

/-- Punctuation marks, longer ones before their beginnings. -/
def marks : List String :=
  [">>>=", "...", "===", "!==", "**=", "<<=", ">>=", ">>>", "&&=", "||=", "??=",
    "=>", "==", "!=", "<=", ">=", "&&", "||", "??", "?.", "++", "--", "+=", "-=", "*=", "/=", "%=",
    "&=", "|=", "^=", "<<", ">>", "**",
    "\x7b", "\x7d", "(", ")", "[", "]", ";", ",", "<", ">", "+", "-", "*", "/", "%", "&", "|", "^",
    "!", "~", "?", ":", "=", ".", "@", "\x60"]

/-- The rest of a source after some characters it starts with. -/
def after? : List Char → List Char → Option (List Char)
  | [], cs => some cs
  | _ :: _, [] => none
  | p :: ps, c :: cs => if p == c then after? ps cs else none

/-- The mark at the start of a source. A `?.` before a digit is a question mark. -/
def markAt? (cs : List Char) : Option (String × List Char) :=
  match cs with
  | '?' :: '.' :: d :: rest => if d.isDigit then some ("?", '.' :: d :: rest) else some ("?.", d :: rest)
  | _ => marks.findSome? fun m => (after? m.toList cs).map (m, ·)

/-! ## Lexemes -/

/-- A token with the gap before it and its place in the source. -/
structure Lexeme where
  gap : List Piece
  token : Token
  /-- The byte offsets of the token's two ends. -/
  start : Nat
  stop : Nat
  /-- The source from the token on. -/
  here : List Char
  /-- The source after the token. -/
  rest : List Char
deriving Inhabited

/-- The token at the start of a source without leading gap. -/
def tokenAt (cs : List Char) : Token × List Char :=
  match cs with
  | [] => (.endOfInput, [])
  | c :: rest =>
    if c == '"' || c == '\x27' then
      match stringTail c cs.length rest with
      | some (inner, rest) => (.string c inner, rest)
      | none => (.unknown, rest)
    else if c == '#' then
      match nameAt? rest with
      | some (text, rest) => (.privateName (String.ofList ('#' :: text)), rest)
      | none => (.unknown, rest)
    else
      match nameAt? cs with
      | some (text, rest) => (.word (String.ofList text), rest)
      | none =>
        match numberAt? cs with
        | some (text, rest) => (.number (String.ofList text), rest)
        | none =>
          match markAt? cs with
          | some (text, rest) => (.mark text, rest)
          | none => (.unknown, rest)

/-- The number of bytes a token takes in the source. -/
def Token.byteLength : Token → Nat
  | word text | privateName text | number text | mark text => text.utf8ByteSize
  | string _ inner => Character.byteLength inner + 2
  | endOfInput | unknown => 0

/-- The next lexeme of the source from byte offset `position` on. -/
def Lexeme.next (position : Nat) (cs : List Char) : Lexeme :=
  let gap := gapFrom .between position cs
  let (token, rest) := if gap.unclosed then (.unknown, []) else tokenAt gap.rest
  { gap := gap.pieces, token, start := gap.stop, stop := gap.stop + token.byteLength,
    here := gap.rest, rest }

end Unminify.Grammar
