import Unminify.Syntax.Tree

/-!
# Comparing trees

`agree` descends into two trees of one category in step. Forms and scalars must be equal, lists must
have equal length, and children are compared in the order of `Tree`; the first disagreement anywhere
settles the outcome. As with walks, a hook is asked at each pair of phrases and may decide the pair
by itself.

`same` is the plain comparison: two trees are the same when they differ at most in the positions
recorded at identifiers. Numbers are compared by value.
-/

namespace Unminify

/-- Equality of literals, numbers by value. -/
def Literal.same : Literal → Literal → Bool
  | .number x, .number y => x.equal y
  | a, b => a == b

namespace Tree

/-- What a comparison does at each pair of phrases, given the comparison of their children. -/
abbrev PairHook (m : Type → Type) := (c : Category) → Tree c → Tree c → (Unit → m Bool) → m Bool

variable {m : Type → Type} [Monad m]

/-- The second comparison is made only if the first succeeds. -/
@[inline] def both (first : m Bool) (second : Unit → m Bool) : m Bool := do
  if ← first then second () else pure false

/-- A comparison made only under a condition, without which it fails. -/
@[inline] def when (condition : Bool) (comparison : Unit → m Bool) : m Bool :=
  if condition then comparison () else pure false

/-- Compares the forms of two phrases and, child by child, what is below them. -/
def agree (hook : PairHook m) : {c : Category} → Tree c → Tree c → m Bool
  | _, .ident text₁ _, .ident text₂ _ => pure (text₁ == text₂)
  | _, .nameHole index₁, .nameHole index₂ => pure (index₁ == index₂)
  | _, .identExpr name₁, .identExpr name₂ =>
    hook _ name₁ name₂ fun _ => agree hook name₁ name₂
  | _, .literal value₁, .literal value₂ => pure (value₁.same value₂)
  | _, .this, .this => pure true
  | _, .super, .super => pure true
  | _, .template chunks₁ substitutions₁, .template chunks₂ substitutions₂ =>
    when (chunks₁ == chunks₂) fun _ =>
    hook _ substitutions₁ substitutions₂ fun _ => agree hook substitutions₁ substitutions₂
  | _, .tagged chunks₁ tag₁ substitutions₁, .tagged chunks₂ tag₂ substitutions₂ =>
    when (chunks₁ == chunks₂) fun _ =>
    both (hook _ tag₁ tag₂ fun _ => agree hook tag₁ tag₂) fun _ =>
    hook _ substitutions₁ substitutions₂ fun _ => agree hook substitutions₁ substitutions₂
  | _, .array elements₁, .array elements₂ =>
    hook _ elements₁ elements₂ fun _ => agree hook elements₁ elements₂
  | _, .object properties₁, .object properties₂ =>
    hook _ properties₁ properties₂ fun _ => agree hook properties₁ properties₂
  | _, .functionExpr function₁, .functionExpr function₂ =>
    hook _ function₁ function₂ fun _ => agree hook function₁ function₂
  | _, .arrow isAsync₁ params₁ body₁, .arrow isAsync₂ params₂ body₂ =>
    when (isAsync₁ == isAsync₂) fun _ =>
    both (hook _ params₁ params₂ fun _ => agree hook params₁ params₂) fun _ =>
    hook _ body₁ body₂ fun _ => agree hook body₁ body₂
  | _, .classExpr definition₁, .classExpr definition₂ =>
    hook _ definition₁ definition₂ fun _ => agree hook definition₁ definition₂
  | _, .unary op₁ arg₁, .unary op₂ arg₂ =>
    when (op₁ == op₂) fun _ =>
    hook _ arg₁ arg₂ fun _ => agree hook arg₁ arg₂
  | _, .update op₁ before₁ arg₁, .update op₂ before₂ arg₂ =>
    when (op₁ == op₂ && before₁ == before₂) fun _ =>
    hook _ arg₁ arg₂ fun _ => agree hook arg₁ arg₂
  | _, .binary op₁ left₁ right₁, .binary op₂ left₂ right₂ =>
    when (op₁ == op₂) fun _ =>
    both (hook _ left₁ left₂ fun _ => agree hook left₁ left₂) fun _ =>
    hook _ right₁ right₂ fun _ => agree hook right₁ right₂
  | _, .assign op₁ target₁ value₁, .assign op₂ target₂ value₂ =>
    when (op₁ == op₂) fun _ =>
    both (hook _ target₁ target₂ fun _ => agree hook target₁ target₂) fun _ =>
    hook _ value₁ value₂ fun _ => agree hook value₁ value₂
  | _, .conditional test₁ consequent₁ alternate₁, .conditional test₂ consequent₂ alternate₂ =>
    both (hook _ test₁ test₂ fun _ => agree hook test₁ test₂) fun _ =>
    both (hook _ consequent₁ consequent₂ fun _ => agree hook consequent₁ consequent₂) fun _ =>
    hook _ alternate₁ alternate₂ fun _ => agree hook alternate₁ alternate₂
  | _, .call optional₁ callee₁ args₁, .call optional₂ callee₂ args₂ =>
    when (optional₁ == optional₂) fun _ =>
    both (hook _ callee₁ callee₂ fun _ => agree hook callee₁ callee₂) fun _ =>
    hook _ args₁ args₂ fun _ => agree hook args₁ args₂
  | _, .new callee₁ args₁, .new callee₂ args₂ =>
    both (hook _ callee₁ callee₂ fun _ => agree hook callee₁ callee₂) fun _ =>
    hook _ args₁ args₂ fun _ => agree hook args₁ args₂
  | _, .access computed₁ optional₁ object₁ property₁, .access computed₂ optional₂ object₂ property₂ =>
    when (computed₁ == computed₂ && optional₁ == optional₂) fun _ =>
    both (hook _ object₁ object₂ fun _ => agree hook object₁ object₂) fun _ =>
    hook _ property₁ property₂ fun _ => agree hook property₁ property₂
  | _, .comma parts₁, .comma parts₂ =>
    hook _ parts₁ parts₂ fun _ => agree hook parts₁ parts₂
  | _, .spread arg₁, .spread arg₂ =>
    hook _ arg₁ arg₂ fun _ => agree hook arg₁ arg₂
  | _, .await arg₁, .await arg₂ =>
    hook _ arg₁ arg₂ fun _ => agree hook arg₁ arg₂
  | _, .yield delegate₁ arg₁, .yield delegate₂ arg₂ =>
    when (delegate₁ == delegate₂) fun _ =>
    hook _ arg₁ arg₂ fun _ => agree hook arg₁ arg₂
  | _, .exprHole index₁ orDeclaration₁, .exprHole index₂ orDeclaration₂ =>
    pure (index₁ == index₂ && orDeclaration₁ == orDeclaration₂)
  | _, .nameBinder name₁, .nameBinder name₂ =>
    hook _ name₁ name₂ fun _ => agree hook name₁ name₂
  | _, .arrayBinder elements₁, .arrayBinder elements₂ =>
    hook _ elements₁ elements₂ fun _ => agree hook elements₁ elements₂
  | _, .objectBinder properties₁, .objectBinder properties₂ =>
    hook _ properties₁ properties₂ fun _ => agree hook properties₁ properties₂
  | _, .defaultBinder target₁ value₁, .defaultBinder target₂ value₂ =>
    both (hook _ target₁ target₂ fun _ => agree hook target₁ target₂) fun _ =>
    hook _ value₁ value₂ fun _ => agree hook value₁ value₂
  | _, .restBinder target₁, .restBinder target₂ =>
    hook _ target₁ target₂ fun _ => agree hook target₁ target₂
  | _, .keyedBinder key₁ value₁, .keyedBinder key₂ value₂ =>
    both (hook _ key₁ key₂ fun _ => agree hook key₁ key₂) fun _ =>
    hook _ value₁ value₂ fun _ => agree hook value₁ value₂
  | _, .shortBinder name₁ value₁, .shortBinder name₂ value₂ =>
    both (hook _ name₁ name₂ fun _ => agree hook name₁ name₂) fun _ =>
    hook _ value₁ value₂ fun _ => agree hook value₁ value₂
  | _, .restProp target₁, .restProp target₂ =>
    hook _ target₁ target₂ fun _ => agree hook target₁ target₂
  | _, .nameKey text₁, .nameKey text₂ => pure (text₁ == text₂)
  | _, .stringKey text₁, .stringKey text₂ => pure (text₁ == text₂)
  | _, .numberKey value₁, .numberKey value₂ => pure (value₁.equal value₂)
  | _, .computedKey expr₁, .computedKey expr₂ =>
    hook _ expr₁ expr₂ fun _ => agree hook expr₁ expr₂
  | _, .keyed key₁ value₁, .keyed key₂ value₂ =>
    both (hook _ key₁ key₂ fun _ => agree hook key₁ key₂) fun _ =>
    hook _ value₁ value₂ fun _ => agree hook value₁ value₂
  | _, .shorthand name₁, .shorthand name₂ =>
    hook _ name₁ name₂ fun _ => agree hook name₁ name₂
  | _, .methodProp kind₁ key₁ function₁, .methodProp kind₂ key₂ function₂ =>
    when (kind₁ == kind₂) fun _ =>
    both (hook _ key₁ key₂ fun _ => agree hook key₁ key₂) fun _ =>
    hook _ function₁ function₂ fun _ => agree hook function₁ function₂
  | _, .spreadProp arg₁, .spreadProp arg₂ =>
    hook _ arg₁ arg₂ fun _ => agree hook arg₁ arg₂
  | _, .function isAsync₁ isGenerator₁ name₁ params₁ body₁, .function isAsync₂ isGenerator₂ name₂ params₂ body₂ =>
    when (isAsync₁ == isAsync₂ && isGenerator₁ == isGenerator₂) fun _ =>
    both (hook _ name₁ name₂ fun _ => agree hook name₁ name₂) fun _ =>
    both (hook _ params₁ params₂ fun _ => agree hook params₁ params₂) fun _ =>
    hook _ body₁ body₂ fun _ => agree hook body₁ body₂
  | _, .exprBody value₁, .exprBody value₂ =>
    hook _ value₁ value₂ fun _ => agree hook value₁ value₂
  | _, .blockBody body₁, .blockBody body₂ =>
    hook _ body₁ body₂ fun _ => agree hook body₁ body₂
  | _, .classDef name₁ heritage₁ members₁, .classDef name₂ heritage₂ members₂ =>
    both (hook _ name₁ name₂ fun _ => agree hook name₁ name₂) fun _ =>
    both (hook _ heritage₁ heritage₂ fun _ => agree hook heritage₁ heritage₂) fun _ =>
    hook _ members₁ members₂ fun _ => agree hook members₁ members₂
  | _, .method kind₁ isStatic₁ key₁ function₁, .method kind₂ isStatic₂ key₂ function₂ =>
    when (kind₁ == kind₂ && isStatic₁ == isStatic₂) fun _ =>
    both (hook _ key₁ key₂ fun _ => agree hook key₁ key₂) fun _ =>
    hook _ function₁ function₂ fun _ => agree hook function₁ function₂
  | _, .field isStatic₁ key₁ value₁, .field isStatic₂ key₂ value₂ =>
    when (isStatic₁ == isStatic₂) fun _ =>
    both (hook _ key₁ key₂ fun _ => agree hook key₁ key₂) fun _ =>
    hook _ value₁ value₂ fun _ => agree hook value₁ value₂
  | _, .staticBlock body₁, .staticBlock body₂ =>
    hook _ body₁ body₂ fun _ => agree hook body₁ body₂
  | _, .varDecl kind₁ declarators₁, .varDecl kind₂ declarators₂ =>
    when (kind₁ == kind₂) fun _ =>
    hook _ declarators₁ declarators₂ fun _ => agree hook declarators₁ declarators₂
  | _, .declarator target₁ init₁, .declarator target₂ init₂ =>
    both (hook _ target₁ target₂ fun _ => agree hook target₁ target₂) fun _ =>
    hook _ init₁ init₂ fun _ => agree hook init₁ init₂
  | _, .declHead decl₁, .declHead decl₂ =>
    hook _ decl₁ decl₂ fun _ => agree hook decl₁ decl₂
  | _, .exprHead expr₁, .exprHead expr₂ =>
    hook _ expr₁ expr₂ fun _ => agree hook expr₁ expr₂
  | _, .switchCase test₁ body₁, .switchCase test₂ body₂ =>
    both (hook _ test₁ test₂ fun _ => agree hook test₁ test₂) fun _ =>
    hook _ body₁ body₂ fun _ => agree hook body₁ body₂
  | _, .handler param₁ body₁, .handler param₂ body₂ =>
    both (hook _ param₁ param₂ fun _ => agree hook param₁ param₂) fun _ =>
    hook _ body₁ body₂ fun _ => agree hook body₁ body₂
  | _, .exprStmt expr₁, .exprStmt expr₂ =>
    hook _ expr₁ expr₂ fun _ => agree hook expr₁ expr₂
  | _, .varStmt decl₁, .varStmt decl₂ =>
    hook _ decl₁ decl₂ fun _ => agree hook decl₁ decl₂
  | _, .functionStmt function₁, .functionStmt function₂ =>
    hook _ function₁ function₂ fun _ => agree hook function₁ function₂
  | _, .classStmt definition₁, .classStmt definition₂ =>
    hook _ definition₁ definition₂ fun _ => agree hook definition₁ definition₂
  | _, .blockStmt body₁, .blockStmt body₂ =>
    hook _ body₁ body₂ fun _ => agree hook body₁ body₂
  | _, .emptyStmt, .emptyStmt => pure true
  | _, .ifStmt test₁ consequent₁ alternate₁, .ifStmt test₂ consequent₂ alternate₂ =>
    both (hook _ test₁ test₂ fun _ => agree hook test₁ test₂) fun _ =>
    both (hook _ consequent₁ consequent₂ fun _ => agree hook consequent₁ consequent₂) fun _ =>
    hook _ alternate₁ alternate₂ fun _ => agree hook alternate₁ alternate₂
  | _, .forStmt init₁ test₁ update₁ body₁, .forStmt init₂ test₂ update₂ body₂ =>
    both (hook _ init₁ init₂ fun _ => agree hook init₁ init₂) fun _ =>
    both (hook _ test₁ test₂ fun _ => agree hook test₁ test₂) fun _ =>
    both (hook _ update₁ update₂ fun _ => agree hook update₁ update₂) fun _ =>
    hook _ body₁ body₂ fun _ => agree hook body₁ body₂
  | _, .forIn left₁ right₁ body₁, .forIn left₂ right₂ body₂ =>
    both (hook _ left₁ left₂ fun _ => agree hook left₁ left₂) fun _ =>
    both (hook _ right₁ right₂ fun _ => agree hook right₁ right₂) fun _ =>
    hook _ body₁ body₂ fun _ => agree hook body₁ body₂
  | _, .forOf isAwait₁ left₁ right₁ body₁, .forOf isAwait₂ left₂ right₂ body₂ =>
    when (isAwait₁ == isAwait₂) fun _ =>
    both (hook _ left₁ left₂ fun _ => agree hook left₁ left₂) fun _ =>
    both (hook _ right₁ right₂ fun _ => agree hook right₁ right₂) fun _ =>
    hook _ body₁ body₂ fun _ => agree hook body₁ body₂
  | _, .whileStmt test₁ body₁, .whileStmt test₂ body₂ =>
    both (hook _ test₁ test₂ fun _ => agree hook test₁ test₂) fun _ =>
    hook _ body₁ body₂ fun _ => agree hook body₁ body₂
  | _, .doWhile test₁ body₁, .doWhile test₂ body₂ =>
    both (hook _ test₁ test₂ fun _ => agree hook test₁ test₂) fun _ =>
    hook _ body₁ body₂ fun _ => agree hook body₁ body₂
  | _, .returnStmt value₁, .returnStmt value₂ =>
    hook _ value₁ value₂ fun _ => agree hook value₁ value₂
  | _, .throwStmt value₁, .throwStmt value₂ =>
    hook _ value₁ value₂ fun _ => agree hook value₁ value₂
  | _, .breakStmt label₁, .breakStmt label₂ => pure (label₁ == label₂)
  | _, .continueStmt label₁, .continueStmt label₂ => pure (label₁ == label₂)
  | _, .labeled label₁ body₁, .labeled label₂ body₂ =>
    when (label₁ == label₂) fun _ =>
    hook _ body₁ body₂ fun _ => agree hook body₁ body₂
  | _, .switchStmt discriminant₁ cases₁, .switchStmt discriminant₂ cases₂ =>
    both (hook _ discriminant₁ discriminant₂ fun _ => agree hook discriminant₁ discriminant₂) fun _ =>
    hook _ cases₁ cases₂ fun _ => agree hook cases₁ cases₂
  | _, .tryStmt block₁ handler₁ finalizer₁, .tryStmt block₂ handler₂ finalizer₂ =>
    both (hook _ block₁ block₂ fun _ => agree hook block₁ block₂) fun _ =>
    both (hook _ handler₁ handler₂ fun _ => agree hook handler₁ handler₂) fun _ =>
    hook _ finalizer₁ finalizer₂ fun _ => agree hook finalizer₁ finalizer₂
  | _, .debugger, .debugger => pure true
  | _, .comment text₁, .comment text₂ => pure (text₁ == text₂)
  | _, .sequence body₁, .sequence body₂ =>
    hook _ body₁ body₂ fun _ => agree hook body₁ body₂
  | _, .stmtHole index₁ multiLine₁, .stmtHole index₂ multiLine₂ =>
    pure (index₁ == index₂ && multiLine₁ == multiLine₂)
  | _, .stmts items₁, .stmts items₂ =>
    hook _ items₁ items₂ fun _ => agree hook items₁ items₂
  | _, .body stmt₁, .body stmt₂ =>
    hook _ stmt₁ stmt₂ fun _ => agree hook stmt₁ stmt₂
  | _, .nil, .nil => pure true
  | _, .cons head₁ tail₁, .cons head₂ tail₂ =>
    both (hook _ head₁ head₂ fun _ => agree hook head₁ head₂) fun _ =>
    hook _ tail₁ tail₂ fun _ => agree hook tail₁ tail₂
  | _, .none, .none => pure true
  | _, .some value₁, .some value₂ =>
    hook _ value₁ value₂ fun _ => agree hook value₁ value₂  | _, _, _ => pure false

/-- Compares two phrases, the hook being asked at the pair itself as well. -/
def compare (hook : PairHook m) {c : Category} (t u : Tree c) : m Bool :=
  hook c t u fun _ => agree hook t u

/-- Equality up to recorded positions. -/
def same {c : Category} (t u : Tree c) : Bool :=
  Id.run (agree (fun _ _ _ children => children ()) t u)

end Tree

end Unminify
