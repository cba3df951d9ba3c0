import Unminify.Number.Shortest

/-!
# Numerals

The texts of numbers in source code. `Binary64.numeral` writes a value with its shortest digits,
positionally from one millionth up to, but not including, `10 ^ 21`, and with a signed exponent
elsewhere. `Numeral.read?` gives a literal's text its meaning: decimal, radix-prefixed, legacy octal
or big integer.

The digits of a radix literal are accumulated from the left, rounding at every step.
-/

namespace Unminify

/-- What the text of a number literal denotes. -/
inductive Numeral
  | number (value : Binary64)
  /-- The text of a big integer, prefix included, without separators and without its final `n`. -/
  | bigInt (digits : String)
deriving DecidableEq, Repr, Inhabited

namespace Binary64

/-- Whether a positive finite value is written without an exponent. The lower bound is the value
closest to one millionth; the values of positive numbers are ordered like their bits. -/
def isPositional (x : Binary64) : Bool :=
  (ofDecimal 1 (-6)).bits ≤ x.bits && x.bits < (ofDecimal 1 21).bits

/-- The text of a positive finite value. -/
def positiveNumeral (x : Binary64) : String :=
  let d := x.shortest
  if x.isPositional then d.positional
  else
    let sign := if 0 ≤ d.power then "+" else "-"
    d.mantissa ++ "e" ++ sign ++ toString d.power.natAbs

/-- The text of a value in source code. Infinity is written as a literal that overflows when read,
and both zeros are written alike. -/
def numeral (x : Binary64) : String :=
  if x.isNaN then "NaN"
  else if x.isZero then "0"
  else
    let text := if x.isInfinite then "1e999" else x.magnitude.positiveNumeral
    if x.isNegative then "-" ++ text else text

end Binary64

namespace Numeral

/-- The value of a digit in some radix up to sixteen. -/
def digit? (radix : Nat) (c : Char) : Option Nat :=
  let v? :=
    if '0' ≤ c && c ≤ '9' then some (c.toNat - '0'.toNat)
    else if 'a' ≤ c && c ≤ 'f' then some (c.toNat - 'a'.toNat + 10)
    else none
  v?.filter (· < radix)

/-- Digits in a radix, accumulated from the left with rounding after each product and each sum. -/
def radix? (radix : Nat) : List Char → Option Binary64
  | [] => none
  | cs => cs.foldlM (fun acc c => (digit? radix c).map (acc.mulNat radix).addNat) Binary64.zero

/-- The natural number a run of decimal digits denotes. -/
def natOfDigits (cs : List Char) : Nat :=
  cs.foldl (fun acc c => acc * 10 + (c.toNat - '0'.toNat)) 0

/-- A decimal with optional point and exponent, such as `.5`, `1.` or `2e-3`. -/
def decimal? (cs : List Char) : Option Binary64 :=
  let isDigit (c : Char) : Bool := c.isDigit
  let whole := cs.takeWhile isDigit
  let afterWhole := cs.dropWhile isDigit
  let (places, afterPlaces) :=
    match afterWhole with
    | '.' :: rest => (rest.takeWhile isDigit, rest.dropWhile isDigit)
    | rest => ([], rest)
  let exponent? : Option Int :=
    match afterPlaces with
    | [] => some 0
    | 'e' :: '-' :: ds => if !ds.isEmpty && ds.all isDigit then some (-(natOfDigits ds : Int)) else none
    | 'e' :: '+' :: ds => if !ds.isEmpty && ds.all isDigit then some (natOfDigits ds) else none
    | 'e' :: ds => if !ds.isEmpty && ds.all isDigit then some (natOfDigits ds) else none
    | _ => none
  if whole.isEmpty && places.isEmpty then none
  else exponent?.map fun e => Binary64.ofDecimal (natOfDigits (whole ++ places)) (e - places.length)

/-- The meaning of a number literal's text. Separators are dropped; `0x`, `0o` and `0b` choose a
radix; a leading zero before digits alone means octal unless a digit rules it out. -/
def read? (text : String) : Option Numeral :=
  let clean := text.toList.filter (· != '_')
  if clean.getLast? = some 'n' then some (.bigInt (String.ofList clean.dropLast))
  else
    let lower := clean.map Char.toLower
    number <$>
      match lower with
      | '0' :: 'x' :: ds => radix? 16 ds
      | '0' :: 'o' :: ds => radix? 8 ds
      | '0' :: 'b' :: ds => radix? 2 ds
      | '0' :: d :: ds =>
        if (d :: ds).all Char.isDigit then radix? 8 (d :: ds) <|> decimal? lower else decimal? lower
      | _ => decimal? lower

end Numeral

end Unminify
