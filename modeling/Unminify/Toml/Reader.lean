import Unminify.Number.Numeral
import Unminify.Toml.Value

/-!
# Reading configuration documents

A document is a list of lines, each of which holds an entry of the table that is open, or the header
of a table to be opened next. What a value is shows at its first character, so nothing is read twice.

Arrays and inline tables may nest 80 deep.
-/

namespace Unminify.Toml

/-- Where a reader stands. -/
structure State where
  rest : List Char
  offset : Nat := 0

abbrev Reader := StateT State (Except Error)

namespace Reader

/-- Fails at the current place. -/
def failWith {α : Type} (message : String) : Reader α := do
  let s ← get
  throw { span := some ⟨s.offset, if s.rest.isEmpty then s.offset else s.offset + 1⟩, message }

/-- Fails at the current place, where some characters were expected. -/
def failExpecting {α : Type} (label : String) (expected : List String) : Reader α :=
  failWith ((if label.isEmpty then "" else "invalid " ++ label ++
      (if expected.isEmpty then "" else "\n")) ++
    if expected.isEmpty then "" else "expected " ++ ", ".intercalate expected)

/-- The next character. -/
def peek : Reader (Option Char) := return (← get).rest.head?

/-- Whether the source goes on with given characters. -/
def ahead (text : String) : Reader Bool := return text.toList.isPrefixOf (← get).rest

/-- Skips a number of characters. -/
def skip (n : Nat) : Reader Unit :=
  modify fun s => {
    rest := s.rest.drop n
    offset := s.offset + (s.rest.take n).foldl (fun k c => k + c.utf8Size) 0 }

/-- Takes characters of a class. -/
def takeWhile (p : Char → Bool) : Reader (List Char) := do
  let found := (← get).rest.takeWhile p
  skip found.length
  return found

/-- Skips given characters if they are there, and says whether they were. -/
def skip? (text : String) : Reader Bool := do
  if ← ahead text then
    skip text.length
    return true
  else return false

/-- Runs a reader up to `n` times, until it says it is done. -/
def loop {σ : Type} (step : σ → Reader (σ × Bool)) : Nat → σ → Reader σ
  | 0, acc => return acc
  | n + 1, acc => do
    let (acc, more) ← step acc
    if more then loop step n acc else return acc

/-- Repeats a reader; every round consumes part of the source, which bounds their number. -/
def repeatFrom {σ : Type} (init : σ) (step : σ → Reader (σ × Bool)) : Reader σ := do
  loop step ((← get).rest.length + 2) init

/-! ## Blanks and comments -/

def isBlank (c : Char) : Bool := c == ' ' || c == '\t'

/-- Characters that a comment or a literal string may hold. -/
def isPlain (c : Char) : Bool := c == '\t' || (32 ≤ c.toNat && c.toNat != 127)

/-- Skips blanks. -/
def blanks : Reader Unit := discard (takeWhile isBlank)

/-- Skips a comment. -/
def comment : Reader Unit := do
  if ← skip? "#" then discard (takeWhile isPlain)

/-- Skips the end of a line, if it is there, and says whether it was. -/
def newline : Reader Bool := do
  if ← skip? "\r\n" then return true else skip? "\n"

/-- Skips what may follow an entry or a header on its line. -/
def lineEnd : Reader Unit := do
  blanks
  comment
  if (← peek).isNone then return
  if !(← newline) then failExpecting "" ["newline", "\x60#\x60"]

/-- Skips blanks, comments and line ends. -/
def gaps : Reader Unit :=
  repeatFrom () fun _ => do
    blanks
    comment
    return ((), ← newline)

/-! ## Strings -/

/-- The value of a run of hexadecimal digits. -/
def hexValue (cs : List Char) : Option Nat :=
  cs.foldlM (fun n c => (Numeral.digit? 16 c.toLower).map (n * 16 + ·)) 0

/-- The character of an escape with a given number of digits. -/
def codePoint (digits : Nat) : Reader Char := do
  let cs := (← get).rest.take digits
  match hexValue cs with
  | some n =>
    if cs.length = digits && n.isValidChar then
      skip digits
      return Char.ofNat n
    else failExpecting "unicode 8-digit hex code" []
  | none => failExpecting "unicode 8-digit hex code" []

/-- What may follow a backslash, as messages name it. -/
def escapeMarks : List String :=
  ["b", "f", "n", "r", "t", "u", "U", "\\", "\""].map fun c => "\x60" ++ c ++ "\x60"

/-- The character of an escape, the backslash being consumed. -/
def escape : Reader Char := do
  match ← peek with
  | some 'b' => skip 1; return '\x08'
  | some 't' => skip 1; return '\t'
  | some 'n' => skip 1; return '\n'
  | some 'f' => skip 1; return '\x0c'
  | some 'r' => skip 1; return '\r'
  | some '"' => skip 1; return '"'
  | some '\\' => skip 1; return '\\'
  | some 'u' => skip 1; codePoint 4
  | some 'U' => skip 1; codePoint 8
  | _ => failExpecting "escape sequence" escapeMarks

/-- A string between single double quotes, the opening one being consumed. -/
def basicString : Reader String := do
  let found ← repeatFrom ([] : List Char) fun acc => do
    match ← peek with
    | some '"' =>
      skip 1
      return (acc, false)
    | some '\\' =>
      skip 1
      return ((← escape) :: acc, true)
    | some c =>
      if isPlain c then
        skip 1
        return (c :: acc, true)
      else failExpecting "basic string" []
    | none => failExpecting "basic string" []
  return String.ofList found.reverse

/-- A string between single apostrophes, the opening one being consumed. -/
def literalString : Reader String := do
  let found ← takeWhile fun c => isPlain c && c != '\x27'
  if ← skip? "\x27" then return String.ofList found else failExpecting "literal string" []

/-- The quotes that close a string of several lines; up to two more belong to the string. -/
def closing (quote : Char) : Reader (Option (List Char)) := do
  let quotes := (← get).rest.takeWhile (· == quote)
  if 3 ≤ quotes.length then
    let own := min 2 (quotes.length - 3)
    skip (own + 3)
    return some (List.replicate own quote)
  else return none

/-- A string over several lines, the opening quotes being consumed. Only between double quotes are
there escapes; a backslash at the end of a line joins it with the next. -/
def longString (quote : Char) (label : String) : Reader String := do
  discard newline
  let found ← repeatFrom ([] : List Char) fun acc => do
    match ← closing quote with
    | some own => return (own ++ acc, false)
    | none =>
      if ← newline then return ('\n' :: acc, true)
      match ← peek with
      | some '\\' =>
        if quote == '"' then
          skip 1
          let s ← get
          let afterBlanks := s.rest.dropWhile isBlank
          if "\n".toList.isPrefixOf afterBlanks || "\r\n".toList.isPrefixOf afterBlanks then
            repeatFrom () fun _ => do
              blanks
              return ((), ← newline)
            return (acc, true)
          else return ((← escape) :: acc, true)
        else
          skip 1
          return ('\\' :: acc, true)
      | some c =>
        if isPlain c then
          skip 1
          return (c :: acc, true)
        else failExpecting label []
      | none => failExpecting label []
  return String.ofList found.reverse

/-- A string value. -/
def stringValue : Reader String := do
  if ← skip? "\"\"\"" then longString '"' "multiline basic string"
  else if ← skip? "\x27\x27\x27" then longString '\x27' "multiline literal string"
  else if ← skip? "\"" then basicString
  else
    skip 1
    literalString

/-! ## Keys -/

/-- Characters of a key without quotes. -/
def isKeyChar (c : Char) : Bool := c.isAlphanum || c == '-' || c == '_'

/-- One part of a key. -/
def simpleKey : Reader String := do
  if ← skip? "\"" then basicString
  else if ← skip? "\x27" then literalString
  else
    let found ← takeWhile isKeyChar
    if found.isEmpty then failExpecting "key" [] else return String.ofList found

/-- A key: the parts before its last dot, and the last part. -/
def key : Reader (List String × String) := do
  blanks
  let first ← simpleKey
  blanks
  repeatFrom (([] : List String), first) fun (path, last) => do
    if ← skip? "." then
      blanks
      let next ← simpleKey
      blanks
      return ((path ++ [last], next), true)
    else return ((path, last), false)

/-! ## Numbers and moments -/

/-- Digits in which single underscores may separate digits. -/
def digits (isDigit : Char → Bool) (label : String) : Reader (List Char) :=
  repeatFrom ([] : List Char) fun acc => do
    let found ← takeWhile isDigit
    if found.isEmpty then failExpecting label ["digit"]
    if ← skip? "_" then return (acc ++ found, true) else return (acc ++ found, false)

/-- The natural number of some digits. -/
def natOf (radix : Nat) (cs : List Char) : Nat :=
  cs.foldl (fun n c => n * radix + ((Numeral.digit? 16 c.toLower).getD 0)) 0

/-- An integer that has to fit in 64 bits. -/
def integerOf (start : Nat) (n : Int) : Reader Value := do
  if -(Int.pow 2 63) ≤ n && n < Int.pow 2 63 then return .integer ⟨start, (← get).offset⟩ n
  else failWith "number too large to fit in target type"

/-- Digits of an exact number. -/
def fixedDigits (n : Nat) : Reader Nat := do
  let cs := (← get).rest.take n
  if cs.length = n && cs.all Char.isDigit then
    skip n
    return natOf 10 cs
  else failExpecting "date-time" []

/-- Fails unless a number of a date or a time is in its range. -/
def within (low high n : Nat) : Reader Unit := do
  if n < low || high < n then failWith "value is out of range"

/-- A time of day. -/
def timeOfDay : Reader Unit := do
  within 0 23 (← fixedDigits 2)
  if !(← skip? ":") then failExpecting "date-time" []
  within 0 59 (← fixedDigits 2)
  if !(← skip? ":") then failExpecting "date-time" []
  within 0 60 (← fixedDigits 2)
  if ← skip? "." then
    if (← takeWhile Char.isDigit).isEmpty then failExpecting "date-time" []

/-- The number of days of a month. -/
def daysIn (year month : Nat) : Nat :=
  if month = 2 then
    if year % 4 = 0 && (year % 100 != 0 || year % 400 = 0) then 29 else 28
  else if [4, 6, 9, 11].contains month then 30
  else 31

/-- A date, perhaps with a time and an offset. -/
def dateAndTime : Reader Unit := do
  let year ← fixedDigits 4
  skip 1
  let month ← fixedDigits 2
  within 1 12 month
  if !(← skip? "-") then failExpecting "date-time" []
  within 1 (daysIn year month) (← fixedDigits 2)
  let s ← get
  let hasTime :=
    match s.rest with
    | t :: d :: _ => (t == 'T' || t == 't' || t == ' ') && d.isDigit
    | _ => false
  if hasTime then
    skip 1
    timeOfDay
    match ← peek with
    | some 'Z' | some 'z' => skip 1
    | some '+' | some '-' =>
      skip 1
      within 0 23 (← fixedDigits 2)
      if !(← skip? ":") then failExpecting "date-time" []
      within 0 59 (← fixedDigits 2)
    | _ => return

/-- An exponent behind a number: its text. -/
def exponent : Reader (List Char) := do
  skip 1
  let sign ←
    match ← peek with
    | some '+' => skip 1; pure []
    | some '-' => skip 1; pure ['-']
    | _ => pure []
  return 'e' :: sign ++ (← digits Char.isDigit "floating-point number")

/-- A decimal number with an optional sign, the sign being consumed. -/
def decimal (start : Nat) (negative : Bool) : Reader Value := do
  let whole ←
    if (← peek) == some '0' then
      skip 1
      pure ['0']
    else digits Char.isDigit "integer"
  let places ←
    if ← skip? "." then
      let ds ← digits Char.isDigit "floating-point number"
      pure ('.' :: ds)
    else pure []
  let power ←
    match ← peek with
    | some 'e' | some 'E' => exponent
    | _ => pure []
  if places.isEmpty && power.isEmpty then
    let n : Int := natOf 10 whole
    integerOf start (if negative then -n else n)
  else
    match Numeral.decimal? (whole ++ places ++ power) with
    | some x =>
      if x.isInfinite then failExpecting "floating-point number" []
      else return .float ⟨start, (← get).offset⟩ (x.signed negative)
    | none => failExpecting "floating-point number" []

/-- A number in another radix, its leading zero and letter being consumed. -/
def radixNumber (start radix : Nat) (label : String) : Reader Value := do
  let isDigit (c : Char) : Bool := (Numeral.digit? radix c.toLower).isSome
  integerOf start (natOf radix (← digits isDigit label))

/-- Whether some characters start with a run of digits of a given length and then a given mark. -/
def startsWithDigits (n : Nat) (mark : Char) (cs : List Char) : Bool :=
  (cs.take n).length = n && (cs.take n).all Char.isDigit && (cs.drop n).head? == some mark

/-- A number, a date or a time. -/
def numberOrMoment : Reader Value := do
  let s ← get
  let start := s.offset
  let named (negative : Bool) : Reader Value := do
    if ← skip? "inf" then return .float ⟨start, (← get).offset⟩ (Binary64.infinity.signed negative)
    else if ← skip? "nan" then return .float ⟨start, (← get).offset⟩ ⟨0x7ff8000000000000⟩
    else decimal start negative
  if startsWithDigits 4 '-' s.rest then
    dateAndTime
    return .moment ⟨start, (← get).offset⟩
  else if startsWithDigits 2 ':' s.rest then
    timeOfDay
    return .moment ⟨start, (← get).offset⟩
  else if ← skip? "0x" then radixNumber start 16 "hexadecimal integer"
  else if ← skip? "0o" then radixNumber start 8 "octal integer"
  else if ← skip? "0b" then radixNumber start 2 "binary integer"
  else if ← skip? "+" then named false
  else if ← skip? "-" then named true
  else named false

/-! ## Values -/

/-- The items of an array up to its closing bracket, the opening one being consumed. -/
def arrayItems (item : Reader Value) : Reader (List Value) :=
  repeatFrom ([] : List Value) fun acc => do
    gaps
    if ← skip? "]" then return (acc, false)
    else
      if (← peek).isNone then failExpecting "array" ["\x60]\x60"]
      let v ← item
      gaps
      if ← skip? "," then return (acc ++ [v], true)
      else if ← skip? "]" then return (acc ++ [v], false)
      else failExpecting "array" ["\x60]\x60"]

/-- Puts an entry into a table, or fails. -/
def insertEntry (path : List String) (key : String) (v table : Value) : Reader Value := do
  match Value.insert path key v table with
  | .ok t => return t
  | .error message => failWith message

/-- The entries of an inline table up to its closing brace, the opening one being consumed. -/
def inlineEntries (item : Reader Value) : Reader Value := do
  let empty : Value := .table none .inline []
  blanks
  if ← skip? "\x7d" then return empty
  repeatFrom empty fun t => do
    let (path, last) ← key
    if !(← skip? "=") then failExpecting "inline table" ["\x60.\x60", "\x60=\x60"]
    blanks
    let t ← insertEntry path last (← item) t
    blanks
    if ← skip? "," then return (t, true)
    else if ← skip? "\x7d" then return (t, false)
    else failExpecting "inline table" ["\x60\x7d\x60"]

/-- The word of a truth value. -/
def truth (word : String) (value : Bool) : Reader Value := do
  let start := (← get).offset
  if ← skip? word then return .boolean ⟨start, (← get).offset⟩ value
  else failExpecting "string" ["\x60\"\x60", "\x60\x27\x60"]

/-- A value nested at most to a given depth. -/
def value : Nat → Reader Value
  | 0 => failWith "recursion limit exceeded"
  | depth + 1 => do
    let start := (← get).offset
    match ← peek with
    | none => failWith ""
    | some c =>
      if c == '"' || c == '\x27' then
        let s ← stringValue
        return .text ⟨start, (← get).offset⟩ s
      else if c == '[' then
        skip 1
        let items ← arrayItems (value depth)
        return .array ⟨start, (← get).offset⟩ items
      else if c == '\x7b' then
        skip 1
        match ← inlineEntries (value depth) with
        | .table _ origin entries => return .table (some ⟨start, (← get).offset⟩) origin entries
        | other => return other
      else if c.isDigit || c == '+' || c == '-' || c == 'i' || c == 'n' then numberOrMoment
      else if c == 't' then truth "true" true
      else if c == 'f' then truth "false" false
      else if c == '_' || c == '.' then failExpecting "" ["leading digit"]
      else failExpecting "string" ["\x60\"\x60", "\x60\x27\x60"]

/-! ## Documents -/

/-- The document so far, and the path of the table that is open. -/
structure Progress where
  root : Value := .table none .header []
  current : List String := []

/-- A result, or a failure at a place before the current one. -/
def orFailAt {α : Type} (start : Nat) : Except String α → Reader α
  | .ok a => return a
  | .error message => throw { span := some ⟨start, start + 1⟩, message }

/-- An entry of the open table. -/
def entry (p : Progress) : Reader Progress := do
  let start := (← get).offset
  let (path, last) ← key
  if !(← skip? "=") then failExpecting "" ["\x60.\x60", "\x60=\x60"]
  blanks
  let v ← value 80
  lineEnd
  let root ← orFailAt start (p.root.descend false (Value.insert path last v) p.current)
  return { p with root }

/-- The header of a table, or of one more table under a name. -/
def header (p : Progress) : Reader Progress := do
  let start := (← get).offset
  skip 1
  let isNext ← skip? "["
  let (path, last) ← key
  let close := if isNext then "]]" else "]"
  if !(← skip? close) then failExpecting "table header" ["\x60.\x60", "\x60" ++ close ++ "\x60"]
  let span : Span := ⟨start, (← get).offset⟩
  lineEnd
  let root ← orFailAt start
    (if isNext then p.root.openNext span path last else p.root.openTable span path last)
  return { root, current := path ++ [last] }

/-- All lines of a document. -/
def document : Reader Value := do
  discard (skip? "\ufeff")
  let p ← repeatFrom ({} : Progress) fun p => do
    gaps
    match ← peek with
    | none => return (p, false)
    | some '[' => return (← header p, true)
    | some _ => return (← entry p, true)
  return p.root

end Reader

/-- Reads a document. -/
def read (source : String) : Except Error Value :=
  (Reader.document.run' { rest := source.toList })

end Unminify.Toml
