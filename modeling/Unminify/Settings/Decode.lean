import Unminify.Document
import Unminify.Settings
import Unminify.Toml.Reader

/-!
# Settings from configuration documents

A document may have a table `rewrite` with the fields `max_passes`, `disabled` and
`multi_line_kinds`, and tables `rules`, each with a name, a pattern and a replacement. Other entries
are ignored. A structure may also be written as an array of its fields in that order.
-/

namespace Unminify.Settings

open Toml (Value Error)

/-- What a value is called in messages. -/
def described : Value → String
  | .text _ s => "string " ++ Document.quoted s
  | .integer _ n => "integer \x60" ++ toString n ++ "\x60"
  | .float _ x =>
    let digits := x.numeral
    "floating point \x60" ++ digits ++ (if digits.toList.contains '.' then "" else ".0") ++ "\x60"
  | .boolean _ b => "boolean \x60" ++ (if b then "true" else "false") ++ "\x60"
  | .array _ _ | .tables _ => "sequence"
  | .moment _ | .table _ _ _ => "map"

/-- A failure at a value. -/
def failAt {α : Type} (v : Value) (message : String) : Except Error α :=
  .error { span := v.span?, message }

/-- The failure of a value that is not what is expected. -/
def unexpected {α : Type} (v : Value) (expected : String) : Except Error α :=
  failAt v ("invalid type: " ++ described v ++ ", expected " ++ expected)

/-- A number of passes. -/
def toCount (v : Value) : Except Error Nat :=
  match v with
  | .integer _ n =>
    if 0 ≤ n then .ok n.toNat
    else failAt v ("invalid value: " ++ described v ++ ", expected usize")
  | v => unexpected v "usize"

/-- A text. -/
def toText (v : Value) : Except Error String :=
  match v with
  | .text _ s => .ok s
  | v => unexpected v "a string"

/-- A list of things. -/
def toList {α : Type} (item : Value → Except Error α) (v : Value) : Except Error (List α) :=
  match v with
  | .array _ items | .tables items => items.mapM item
  | v => unexpected v "a sequence"

/-- A kind of statement, by its name. -/
def toKind (v : Value) : Except Error StmtKind :=
  let named (name : String) : Except Error StmtKind :=
    match StmtKind.ofName? name with
    | some kind => .ok kind
    | none =>
      failAt v ("unknown variant \x60" ++ name ++ "\x60, expected one of " ++
        ", ".intercalate (StmtKind.all.map fun kind => "\x60" ++ kind.name ++ "\x60"))
  match v with
  | .text _ name => named name
  | .table _ _ [(name, .table _ _ [])] | .table _ _ [(name, .array _ [])] => named name
  | v => failAt v "wanted string or table"

/-- A field of the `rewrite` table put into settings. -/
def withField (s : Settings) (key : String) (v : Value) : Except Error Settings := do
  match key with
  | "max_passes" => return { s with maxPasses := some (← toCount v) }
  | "disabled" => return { s with disabled := ← toList toText v }
  | "multi_line_kinds" => return { s with compoundKinds := some (← toList toKind v) }
  | _ => return s

/-- The `rewrite` table put into settings. -/
def withTable (s : Settings) (v : Value) : Except Error Settings :=
  match v with
  | .table _ _ entries => entries.foldlM (fun s (key, v) => s.withField key v) s
  | .array _ items =>
    (["max_passes", "disabled", "multi_line_kinds"].zip items).foldlM
      (fun s (key, v) => s.withField key v) s
  | v => unexpected v "struct RewriteConfig"

/-- A rule. -/
def toSpec (v : Value) : Except Error RuleSpec := do
  let fields := ["name", "pattern", "replacement"]
  let texts ←
    match v with
    | .table _ _ entries =>
      let known ← (entries.filter fun (key, _) => fields.contains key).mapM
        fun (key, v) => do return (key, ← toText v)
      fields.mapM fun field =>
        match known.lookup field with
        | some text => .ok text
        | none => failAt v ("missing field \x60" ++ field ++ "\x60")
    | .array _ items => do
      let found ← (items.take 3).mapM toText
      if found.length < 3 then
        failAt v ("invalid length " ++ toString found.length ++ ", expected struct RuleSpec with 3 elements")
      else pure found
    | v => unexpected v "struct RuleSpec"
  match texts with
  | [name, pattern, replacement] => return { name, pattern, replacement }
  | _ => failAt v "missing field"

/-- The settings of a document. -/
def ofDocument (v : Value) : Except Error Settings :=
  match v with
  | .table _ _ entries =>
    entries.foldlM (fun s (key, v) => do
      match key with
      | "rewrite" => s.withTable v
      | "rules" => return { s with rules := ← toList toSpec v }
      | _ => return s) {}
  | v => unexpected v "struct JsnormConfig"

/-- The settings written in a text. -/
def ofText (source : String) : Except Error Settings := do ofDocument (← Toml.read source)

end Unminify.Settings
