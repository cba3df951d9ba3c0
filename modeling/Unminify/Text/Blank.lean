/-!
# White space

The characters with the Unicode property White_Space.
-/

namespace Unminify.Text

/-- White space of any script. -/
def isBlank (c : Char) : Bool :=
  let n := c.toNat
  (9 ≤ n && n ≤ 13) || n == 0x20 || n == 0x85 || n == 0xA0 || n == 0x1680 ||
    (0x2000 ≤ n && n ≤ 0x200A) || n == 0x2028 || n == 0x2029 || n == 0x202F || n == 0x205F ||
    n == 0x3000

/-- A text without the white space at its end. -/
def trimEnd (s : String) : String :=
  String.ofList (s.toList.reverse.dropWhile isBlank).reverse

/-- The lines of a text. A line ends at a line feed, with or without a carriage return before it; a
line feed at the end of the text starts no further line. -/
def lines (s : String) : List String :=
  let withoutReturn (cs : List Char) : List Char :=
    match cs.reverse with
    | '\r' :: rest => rest.reverse
    | _ => cs
  let rec split (reversed : List Char) : List Char → List (List Char)
    | [] => if reversed.isEmpty then [] else [reversed.reverse]
    | c :: cs =>
      if c == '\n' then withoutReturn reversed.reverse :: split [] cs else split (c :: reversed) cs
  (split [] s.toList).map String.ofList

end Unminify.Text
