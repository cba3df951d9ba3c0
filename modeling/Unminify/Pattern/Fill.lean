import Unminify.Pattern.Environment
import Unminify.Syntax.Walk

/-!
# Filling

Makes a tree from a template by putting bound values in the place of holes. A block that consists of
one statement hole takes over the statements of a bound block instead of nesting it. A hole in the
head of a loop may stand for a declaration; anywhere else it may not.
-/

namespace Unminify

/-- Why a template cannot be filled. -/
inductive FillError
  | unbound (hole : Hole)
  /-- The value of a hole is of a kind that cannot stand there. -/
  | mismatch (hole : Hole)
deriving DecidableEq, Repr, Inhabited

/-- The wording of an error. -/
def FillError.message : FillError → String
  | unbound hole => "template uses \x60" ++ hole.text ++ "\x60, which the pattern never bound"
  | mismatch hole => "\x60" ++ hole.text ++ "\x60 is bound to a declaration, which cannot stand here"

namespace Pattern

/-- The statements that a block with one statement hole takes over. -/
def adopted? (env : Environment) (inner : Block) : Option Block :=
  match inner.statements with
  | [.stmtHole index _] =>
    match env.get? ⟨.statement, index⟩ with
    | some (.stmt (.blockStmt bound)) | some (.stmt (.sequence bound)) => some bound
    | some (.stmt .emptyStmt) => some (.stmts .nil)
    | _ => none
  | _ => none

/-- What filling does at a phrase. A declaration put into the head of a loop is filled in turn, which
goes at most `depth` declarations deep. -/
def fillHook (env : Environment) : (depth : Nat) → Tree.Hook (Except FillError)
  | depth, c, t, walk =>
    match c, t with
    | .stmt, .stmtHole index _ =>
      let hole : Hole := ⟨.statement, index⟩
      match env.get? hole with
      | some (.stmt bound) => .ok bound
      | some _ => .error (.mismatch hole)
      | none => .error (.unbound hole)
    | .stmt, .blockStmt inner =>
      match adopted? env inner with
      | some bound => .ok (.blockStmt bound)
      | none => walk ()
    | .expr, .exprHole index _ =>
      let hole : Hole := ⟨.expression, index⟩
      match env.get? hole with
      | some (.expr bound) => .ok bound
      | some _ => .error (.mismatch hole)
      | none => .error (.unbound hole)
    | .name, .nameHole index =>
      let hole : Hole := ⟨.generic, index⟩
      match env.get? hole with
      | some (.name bound) => .ok bound
      | some _ => .error (.mismatch hole)
      | none => .error (.unbound hole)
    | .forHead, .exprHead (.exprHole index _) =>
      match env.get? ⟨.expression, index⟩ with
      | some (.decl bound) =>
        match depth with
        | 0 => .ok (.declHead bound)
        | depth + 1 => do return .declHead (← bound.visit (fillHook env depth))
      | _ => walk ()
    | _, _ => walk ()

/-- Fills a phrase of a template. -/
def fillTree {c : Category} (env : Environment) (t : Tree c) : Except FillError (Tree c) :=
  t.visit (fillHook env env.size)

end Pattern

end Unminify
