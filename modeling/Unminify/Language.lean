/-!
# The language of the source files

What source files are written in, and how their names end.
-/

namespace Unminify.Language

/-- The name of the language, both of what is read and of what is written. -/
def name : String := "javascript"

/-- The extensions of files that are read. -/
def extensions : List String := ["js", "mjs", "cjs"]

/-- The extension of a file that is written. -/
def extension : String := "js"

theorem extension_mem_extensions : extension ∈ extensions := by decide

end Unminify.Language
