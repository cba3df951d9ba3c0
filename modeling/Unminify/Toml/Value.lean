import Unminify.Number.Binary64

/-!
# Configuration documents

The values of a configuration document in the TOML format. Values keep the stretch of the text that
they were read from, so that a message can point at it.

A table knows how it came about, because that decides what may still be added to it.
-/

namespace Unminify.Toml

/-- A stretch of a text, by byte offsets. -/
structure Span where
  start : Nat
  stop : Nat
deriving DecidableEq, Repr, Inhabited

/-- How a table came about. -/
inductive Origin
  /-- Written as one value. -/
  | inline
  /-- Opened by a header of its own. -/
  | header
  /-- Implied by the header of a table inside it. -/
  | implied
  /-- Implied by a dotted key. -/
  | dotted
deriving DecidableEq, Repr, Inhabited

/-- Whether a table was only implied. -/
def Origin.isImplied : Origin → Bool
  | implied | dotted => true
  | inline | header => false

/-- A value. -/
inductive Value
  | text (span : Span) (value : String)
  | integer (span : Span) (value : Int)
  | float (span : Span) (value : Binary64)
  | boolean (span : Span) (value : Bool)
  /-- A date, a time, or both. -/
  | moment (span : Span)
  | array (span : Span) (items : List Value)
  | table (span : Option Span) (origin : Origin) (entries : List (String × Value))
  /-- Tables opened one after the other under one name. -/
  | tables (items : List Value)
deriving Inhabited

/-- Why a text is no document, or not one of the expected form. -/
structure Error where
  span : Option Span
  message : String
deriving DecidableEq, Repr, Inhabited

/-- The line and the column of a byte offset, from zero, and the text of the line. The offset may be
one past the end of the text. -/
def locate (source : List Char) (offset : Nat) : Nat × Nat × List Char :=
  let rec go (line column at_ : Nat) (reversed : List Char) : List Char → Nat × Nat × List Char
    | [] => (line, column, reversed.reverse)
    | c :: cs =>
      if offset ≤ at_ then (line, column, reversed.reverse ++ (c :: cs).takeWhile (· != '\n'))
      else if c == '\n' && cs.isEmpty then (line, column + 1, reversed.reverse)
      else if c == '\n' then go (line + 1) 0 (at_ + 1) [] cs
      else go line (column + 1) (at_ + c.utf8Size) (c :: reversed) cs
  go 0 0 0 [] source

/-- The wording of an error in a document: where it is, the line with a mark under the stretch, and
what is wrong. -/
def Error.text (source : String) (e : Error) : String :=
  match e.span with
  | none => e.message ++ "\n"
  | some span =>
    let (line, column, content) := locate source.toList span.start
    let number := toString (line + 1)
    let gutter := String.ofList (List.replicate (number.length + 1) ' ') ++ "|"
    let width := min (span.stop - span.start) ((String.ofList content).utf8ByteSize - column)
    "TOML parse error at line " ++ number ++ ", column " ++ toString (column + 1) ++ "\n" ++
      gutter ++ "\n" ++ number ++ " | " ++ String.ofList content ++ "\n" ++ gutter ++
      String.ofList (List.replicate (column + 1) ' ') ++
      String.ofList (List.replicate (max 1 width) '^') ++ "\n" ++ e.message ++ "\n"

namespace Value

/-- Where a value stands. -/
def span? : Value → Option Span
  | text s _ | integer s _ | float s _ | boolean s _ | moment s | array s _ => some s
  | table s _ _ => s
  | tables items =>
    match items with
    | table s _ _ :: _ => s
    | _ => none

/-- The entry of a table. -/
def get? (v : Value) (key : String) : Option Value :=
  match v with
  | table _ _ entries => entries.lookup key
  | _ => none

/-- An entry put in the place of another one, or at the end. -/
def setEntry (key : String) (v : Value) : List (String × Value) → List (String × Value)
  | [] => [(key, v)]
  | (k, w) :: rest => if k = key then (key, v) :: rest else (k, w) :: setEntry key v rest

/-- The items of a list with the last one changed. -/
def changeLast {ε : Type} (f : Value → Except ε Value) : List Value → Except ε (List Value)
  | [] => .ok []
  | [v] => do return [← f v]
  | v :: vs => do return v :: (← changeLast f vs)

/-- Changes the table at the end of a path of keys; missing tables on the way are implied. Of tables
under one name the last is meant. A dotted path may only lead through tables that are implied. -/
def descend (dotted : Bool) (f : Value → Except String Value) : List String → Value → Except String Value
  | [], v => f v
  | key :: path, .table span origin entries => do
    let child ←
      match entries.lookup key with
      | none => descend dotted f path (.table none (if dotted then .dotted else .implied) [])
      | some (.table span origin inner) =>
        if origin = .inline then .error ("dotted key \x60" ++ key ++ "\x60 attempted to extend non-table type (inline table)")
        else if dotted && !origin.isImplied then .error ("duplicate key \x60" ++ key ++ "\x60")
        else descend dotted f path (.table span origin inner)
      | some (.tables items) => do pure (.tables (← changeLast (descend dotted f path) items))
      | some _ => .error ("dotted key \x60" ++ key ++ "\x60 attempted to extend non-table type")
    return .table span origin (setEntry key child entries)
  | _ :: _, _ => .error "dotted key attempted to extend non-table type"

/-- Adds an entry to the table at the end of a dotted path. -/
def insert (path : List String) (key : String) (v : Value) : Value → Except String Value :=
  descend true (fun t =>
    match t with
    | .table span origin entries =>
      if (origin = .dotted) != path.isEmpty then
        match entries.lookup key with
        | none => .ok (.table span origin (entries ++ [(key, v)]))
        | some _ => .error ("duplicate key \x60" ++ key ++ "\x60")
      else .error ("duplicate key \x60" ++ key ++ "\x60")
    | other => .ok other) path

/-- Opens the table of a header. -/
def openTable (span : Span) (path : List String) (key : String) : Value → Except String Value :=
  descend false (fun t =>
    match t with
    | .table outer origin entries =>
      match entries.lookup key with
      | none => .ok (.table outer origin (entries ++ [(key, .table (some span) .header [])]))
      | some (.table _ .implied inner) =>
        .ok (.table outer origin (setEntry key (.table (some span) .header inner) entries))
      | some _ => .error ("duplicate key \x60" ++ key ++ "\x60")
    | other => .ok other) path

/-- Opens one more table under a name. -/
def openNext (span : Span) (path : List String) (key : String) : Value → Except String Value :=
  descend false (fun t =>
    match t with
    | .table outer origin entries =>
      let fresh : Value := .table (some span) .header []
      match entries.lookup key with
      | none => .ok (.table outer origin (entries ++ [(key, .tables [fresh])]))
      | some (.tables items) => .ok (.table outer origin (setEntry key (.tables (items ++ [fresh])) entries))
      | some _ => .error ("duplicate key \x60" ++ key ++ "\x60")
    | other => .ok other) path

end Value

end Unminify.Toml
