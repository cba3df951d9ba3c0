/-!
# Quoted strings

A string literal is kept as the text between its quotes, escapes untouched, as if it had been
written between double quotes. `redelimit` brings the inside of a single-quoted literal into that
form: a double quote gains a backslash, an escaped single quote loses its backslash, and every
other escape stays as it is.
-/

namespace Unminify.Quoted

/-- The inside of a single-quoted literal as the inside of a double-quoted one. -/
def redelimit : List Char → List Char
  | [] => []
  | '\\' :: '\x27' :: rest => '\x27' :: redelimit rest
  | '\\' :: c :: rest => '\\' :: c :: redelimit rest
  | '"' :: rest => '\\' :: '"' :: redelimit rest
  | c :: rest => c :: redelimit rest

/-- The kept text of a string literal, given its quote and what stands between the quotes. -/
def content (quote : Char) (inner : List Char) : String :=
  String.ofList (if quote = '"' then inner else redelimit inner)

end Unminify.Quoted
