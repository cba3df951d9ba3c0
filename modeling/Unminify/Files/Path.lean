/-!
# Paths

Paths are texts, with slashes between their parts. The functions here take a path apart by its last
part, its name.
-/

namespace Unminify.Path

/-- The parts of a path, as slashes separate them. -/
def parts (path : String) : List String := (path.toList.splitOn '/').map String.ofList

/-- Whether a path starts at the root. -/
def isAbsolute (path : String) : Bool := path.toList.head? == some '/'

/-- The parts of a path that name something; empty ones and single dots do not. -/
def names (path : String) : List String := (parts path).filter fun p => p != "" && p != "."

/-- The names that a path goes through; a path from the root goes through the root first. -/
def place (path : String) : List String := (if isAbsolute path then ["/"] else []) ++ names path

/-- The path that goes through given names. -/
def ofPlace : List String → String
  | "/" :: names => "/" ++ "/".intercalate names
  | names => "/".intercalate names

/-- A path behind another one. -/
def join (path more : String) : String :=
  if isAbsolute more || path.isEmpty then more
  else if path.toList.getLast? == some '/' then path ++ more
  else path ++ "/" ++ more

/-- A name cut at its last dot: what stands before it, and the extension behind it. A dot in front
starts no extension. -/
def cutExtension (name : String) : String × Option String :=
  let reversed := name.toList.reverse
  match reversed.dropWhile (· != '.') with
  | _ :: stem =>
    if stem.isEmpty || name == ".." then (name, none)
    else (String.ofList stem.reverse, some (String.ofList (reversed.takeWhile (· != '.')).reverse))
  | [] => (name, none)

/-- The extension of a path's last name. -/
def extension? (path : String) : Option String :=
  (names path).getLast?.bind fun name => (cutExtension name).2

/-- A path whose last name has its extension replaced, or gains one. -/
def withExtension (path ext : String) : String :=
  match (parts path).reverse with
  | name :: before => "/".intercalate (((cutExtension name).1 ++ "." ++ ext) :: before).reverse
  | [] => path

end Unminify.Path
