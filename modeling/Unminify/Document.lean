import Unminify.Number.Shortest

/-!
# Documents

A document is a nested value of texts, numbers, arrays and objects, the form in which trees are
dumped. `Document.pretty` writes it with two blanks of indentation per level and one entry per line.
-/

namespace Unminify

/-- A nested value. Objects keep the order of their fields. -/
inductive Document
  | null
  | bool (value : Bool)
  | integer (value : Int)
  | float (value : Binary64)
  | text (value : String)
  | array (items : List Document)
  | object (fields : List (String × Document))
deriving Inhabited

namespace Document

/-- The hexadecimal digits of a control character's code. -/
def hexDigit (n : Nat) : Char := if n < 10 then Char.ofNat (48 + n) else Char.ofNat (87 + n)

/-- A character inside a quoted text. -/
def quotedChar (c : Char) : String :=
  if c = '"' then "\\\""
  else if c = '\\' then "\\\\"
  else if c = '\n' then "\\n"
  else if c = '\r' then "\\r"
  else if c = '\t' then "\\t"
  else if c.toNat = 8 then "\\b"
  else if c.toNat = 12 then "\\f"
  else if c.toNat < 32 then
    "\\u00" ++ String.ofList [hexDigit (c.toNat / 16), hexDigit (c.toNat % 16)]
  else c.toString

/-- A text in quotes. -/
def quoted (s : String) : String := "\"" ++ String.join (s.toList.map quotedChar) ++ "\""

/-- The text of a float: shortest digits, always with a point or an exponent. Values from
`10 ^ -5` up to `10 ^ 16` are written positionally; what is not finite is null. -/
def floatText (x : Binary64) : String :=
  if x.field = 2047 then "null"
  else
    let sign := if x.isNegative then "-" else ""
    if x.isZero then sign ++ "0.0"
    else
      let d := x.magnitude.shortest
      let p := d.pointAt
      if 0 ≤ d.exponent && p ≤ 16 then sign ++ d.positional ++ ".0"
      else if -5 < p && p ≤ 16 then sign ++ d.positional
      else sign ++ d.mantissa ++ "e" ++ toString d.power

/-- The line break and indentation before an entry. -/
def lineBreak (level : Nat) : String := "\n" ++ String.join (List.replicate level "  ")

mutual

/-- The document at an indentation level. -/
def prettyAt (level : Nat) : Document → String
  | null => "null"
  | bool value => if value then "true" else "false"
  | integer value => toString value
  | float value => floatText value
  | text value => quoted value
  | array items =>
    if items.isEmpty then "[]"
    else "[" ++ lineBreak (level + 1) ++ prettyItems (level + 1) items ++ lineBreak level ++ "]"
  | object fields =>
    if fields.isEmpty then "\x7b\x7d"
    else "\x7b" ++ lineBreak (level + 1) ++ prettyFields (level + 1) fields ++ lineBreak level ++ "\x7d"

/-- Array items, one to a line. -/
def prettyItems (level : Nat) : List Document → String
  | [] => ""
  | [d] => prettyAt level d
  | d :: ds => prettyAt level d ++ "," ++ lineBreak level ++ prettyItems level ds

/-- Object fields, one to a line. -/
def prettyFields (level : Nat) : List (String × Document) → String
  | [] => ""
  | [(k, d)] => quoted k ++ ": " ++ prettyAt level d
  | (k, d) :: ds => quoted k ++ ": " ++ prettyAt level d ++ "," ++ lineBreak level ++ prettyFields level ds

end

/-- The document as indented text. -/
def pretty (d : Document) : String := prettyAt 0 d

mutual

/-- The nesting depth of a document. -/
def depth : Document → Nat
  | array items => depthItems items + 1
  | object fields => depthFields fields + 1
  | _ => 1

/-- The largest depth among items. -/
def depthItems : List Document → Nat
  | [] => 0
  | d :: ds => max (depth d) (depthItems ds)

/-- The largest depth among fields. -/
def depthFields : List (String × Document) → Nat
  | [] => 0
  | (_, d) :: ds => max (depth d) (depthFields ds)

end

/-- A document put in front of an array's items. -/
def consTo (d : Document) : Document → Document
  | array items => array (d :: items)
  | other => other

/-- The array of some texts. -/
def texts (ss : List String) : Document := array (ss.map text)

/-- The field of an object; null when it is missing. -/
def get (d : Document) (key : String) : Document :=
  match d with
  | object fields => (fields.lookup key).getD null
  | _ => null

def toText? : Document → Option String
  | text s => some s
  | _ => none

def toBool? : Document → Option Bool
  | bool b => some b
  | _ => none

/-- A natural number below `2 ^ 32`. -/
def toIndex? : Document → Option Nat
  | integer n => if 0 ≤ n && n < Int.pow 2 32 then some n.toNat else none
  | _ => none

/-- A number, whether written as an integer or as a float. -/
def toNumber? : Document → Option Binary64
  | integer n => some ((Binary64.ofNat n.natAbs).signed (n < 0))
  | float x => some x
  | _ => none

def toTexts? : Document → Option (List String)
  | array items => items.mapM toText?
  | _ => none

/-- An optional text; null means absent. -/
def toOptionalText? : Document → Option (Option String)
  | null => some none
  | text s => some (some s)
  | _ => none

end Document

end Unminify
