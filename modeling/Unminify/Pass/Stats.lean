/-!
# What a pass did

A pass keeps the names of the rules it applied, in order, and counts its other changes.
-/

namespace Unminify

/-- What one or several passes did. -/
structure Stats where
  /-- The names of the rules applied, one for each application. -/
  applied : List String := []
  /-- Comma expressions split into statements. -/
  split : Nat := 0
  /-- Sequences made blocks because they stood as the body of another statement. -/
  coerced : Nat := 0
  /-- Bindings renamed to avoid a collision. -/
  renamed : Nat := 0
deriving DecidableEq, Repr, Inhabited

namespace Stats

/-- The number of changes to the shape of the tree. -/
def total (s : Stats) : Nat := s.applied.length + s.split + s.coerced

/-- Whether anything changed. -/
def changed (s : Stats) : Bool := 0 < s.total || 0 < s.renamed

/-- What two passes did together. -/
def merge (s t : Stats) : Stats where
  applied := s.applied ++ t.applied
  split := s.split + t.split
  coerced := s.coerced + t.coerced
  renamed := s.renamed + t.renamed

/-- How often each rule was applied, for the rules that were. -/
def counts (s : Stats) : List (String × Nat) :=
  s.applied.eraseDups.map fun rule => (rule, s.applied.count rule)

end Stats

end Unminify
