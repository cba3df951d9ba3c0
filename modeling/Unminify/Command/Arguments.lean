import Unminify.Command.Run

/-!
# Arguments

Reads a request from the words of a command line. An option's value is the word after it, or stands
behind an equals sign. After `--` every word is an input.
-/

namespace Unminify

/-- Why the words of a command line are no request. -/
inductive ArgumentError
  | unknown (word : String)
  | noValue (option : String)
  | badNumber (option value : String)
  | noInput
deriving DecidableEq, Repr, Inhabited

/-- The wording of an error. -/
def ArgumentError.message : ArgumentError → String
  | unknown word => "unexpected argument '" ++ word ++ "' found"
  | noValue option => "a value is required for '" ++ option ++ "' but none was supplied"
  | badNumber option value => "invalid value '" ++ value ++ "' for '" ++ option ++ "'"
  | noInput => "the following required arguments were not provided: <INPUT>"

namespace Request

/-- The options that take a value. -/
def valued : List String := ["--output", "-o", "--passes", "--disable"]

/-- Splits a word such as `--passes=3`. -/
def splitWord (word : String) : String × Option String :=
  match word.splitOn "=" with
  | option :: value :: more => (option, some ("=".intercalate (value :: more)))
  | _ => (word, none)

/-- Puts the value of an option into a request. -/
def withValue (r : Request) (option value : String) : Except ArgumentError Request :=
  match option with
  | "--output" | "-o" => .ok { r with output := some value }
  | "--disable" => .ok { r with disabled := r.disabled ++ [value] }
  | _ =>
    match value.toNat? with
    | some n => .ok { r with passes := some n }
    | none => .error (.badNumber option value)

/-- Puts a word that is no option into a request. -/
def withInput (r : Request) (word : String) : Except ArgumentError Request :=
  if r.input.isSome then .error (.unknown word) else .ok { r with input := some word }

/-- Reads words into a request. -/
def withWords (r : Request) : List String → Except ArgumentError Request
  | [] => .ok r
  | "--" :: words => words.foldlM withInput r
  | "--dump-ir" :: words => withWords { r with dump := true } words
  | "--list-rules" :: words => withWords { r with listRules := true } words
  | [word] =>
    match splitWord word with
    | (option, some value) =>
      if valued.contains option then r.withValue option value else .error (.unknown word)
    | (option, none) =>
      if valued.contains option then .error (.noValue option)
      else if word.toList.head? == some '-' && word != "-" then .error (.unknown word)
      else r.withInput word
  | word :: next :: words =>
    match splitWord word with
    | (option, some value) =>
      if valued.contains option then do withWords (← r.withValue option value) (next :: words)
      else .error (.unknown word)
    | (option, none) =>
      if valued.contains option then do withWords (← r.withValue option next) words
      else if word.toList.head? == some '-' && word != "-" then .error (.unknown word)
      else do withWords (← r.withInput word) (next :: words)

/-- The request of a command line. An input is needed unless the rules are listed. -/
def ofArguments (words : List String) : Except ArgumentError Request := do
  let r ← withWords {} words
  if r.input.isNone && !r.listRules then .error .noInput else return r

end Request

end Unminify
