/-!
# Characters

The character classes of source text: blanks, line ends, and the characters names are made of. A
name may hold any character that is not a control character, a blank or a punctuation mark.
-/

namespace Unminify.Character

/-- Blanks between tokens: white space of any script, line ends, and the invisible marks that may
stand between words. -/
def isBlank (c : Char) : Bool :=
  let n := c.toNat
  (9 ≤ n && n ≤ 13) || n == 0x20 || n == 0x85 || n == 0xA0 || n == 0x1680 ||
    (0x2000 ≤ n && n ≤ 0x200B) || n == 0x2028 || n == 0x2029 || n == 0x202F || n == 0x205F ||
    n == 0x2060 || n == 0x3000 || n == 0xFEFF

/-- Characters that end a line comment. -/
def endsLine (c : Char) : Bool :=
  c == '\n' || c == '\r' || c.toNat == 0x2028 || c.toNat == 0x2029

/-- Characters that count as a line break where a semicolon may be left out. -/
def breaksLine (c : Char) : Bool := c == '\n' || c.toNat == 0x2028 || c.toNat == 0x2029

/-- The ASCII characters that can never be part of a name. -/
def punctuation : List Char := ":;\x60\"\x27@#.,|^&<=>+-*/\\%?!~()[]\x7b\x7d".toList

/-- Characters a name may go on with. -/
def isNamePart (c : Char) : Bool :=
  32 ≤ c.toNat && !isBlank c && !punctuation.contains c

/-- Characters a name may start with. -/
def isNameStart (c : Char) : Bool := isNamePart c && !c.isDigit

def isHexDigit (c : Char) : Bool :=
  c.isDigit || ('a' ≤ c && c ≤ 'f') || ('A' ≤ c && c ≤ 'F')

def isOctalDigit (c : Char) : Bool := '0' ≤ c && c ≤ '7'

/-- The number of bytes some characters take in the encoding of a source. -/
def byteLength (cs : List Char) : Nat := cs.foldl (fun n c => n + c.utf8Size) 0

end Unminify.Character
