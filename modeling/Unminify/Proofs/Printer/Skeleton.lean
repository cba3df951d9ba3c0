import Unminify.Grammar.Nonterminal
import Unminify.Printer.Print

/-!
# Control skeletons

Statements that consist of control alone: branches, loops, blocks and labels around identifiers. An
`else` goes to the nearest `if` before it that has none, so a skeleton may be nested in ways that no text
spells as it stands. `Tree.brace` puts the statements concerned into blocks: those between an `if` and its
`else` that end in an `if` without one (`Tree.EndsOpen`).
-/

namespace Unminify

open Grammar

/-- A name of a variable or a label: the scanner takes all of it for one name, and it is neither a keyword
nor one of the words that are expressions by themselves. -/
def IsIdentifier (text : String) : Prop :=
  nameAt? text.toList = some (text.toList, []) ∧ reserved.contains text = false ∧
    text ∉ ["null", "true", "false", "yield"]

instance (text : String) : Decidable (IsIdentifier text) := inferInstanceAs (Decidable (_ ∧ _))

namespace Tree

/-- The last statement inside is an `if` without `else`. What is inside a block or in front of the test of
a loop is closed by what follows. -/
inductive EndsOpen : {c : Category} → Tree c → Prop
  | noElse {test : Expr} {consequent : Tree .body} : EndsOpen (.ifStmt test consequent .none)
  | elseBranch {test : Expr} {consequent alternate : Tree .body} :
      EndsOpen alternate → EndsOpen (.ifStmt test consequent (.some alternate))
  | forStmt {init : Tree (.option .forHead)} {test update : Tree (.option .expr)} {inner : Tree .body} :
      EndsOpen inner → EndsOpen (.forStmt init test update inner)
  | forIn {left : Tree .forHead} {right : Expr} {inner : Tree .body} :
      EndsOpen inner → EndsOpen (.forIn left right inner)
  | forOf {isAwait : Bool} {left : Tree .forHead} {right : Expr} {inner : Tree .body} :
      EndsOpen inner → EndsOpen (.forOf isAwait left right inner)
  | whileStmt {test : Expr} {inner : Tree .body} : EndsOpen inner → EndsOpen (.whileStmt test inner)
  | labeled {label : String} {inner : Tree .body} : EndsOpen inner → EndsOpen (.labeled label inner)
  | body {s : Stmt} : EndsOpen s → EndsOpen (.body s)

/-- The look-ahead of the printer is exact. -/
theorem endsInOpenIf_iff {c : Category} (t : Tree c) : t.endsInOpenIf = true ↔ t.EndsOpen := by
  constructor
  · fun_induction endsInOpenIf t with
    | case1 => exact fun _ => .noElse
    | case2 _ _ _ ih => exact fun h => .elseBranch (ih h)
    | case3 _ _ _ _ ih => exact fun h => .forStmt (ih h)
    | case4 _ _ _ ih => exact fun h => .forIn (ih h)
    | case5 _ _ _ _ ih => exact fun h => .forOf (ih h)
    | case6 _ _ ih => exact fun h => .whileStmt (ih h)
    | case7 _ _ ih => exact fun h => .labeled (ih h)
    | case8 _ ih => exact fun h => .body (ih h)
    | case9 => nofun
  · intro h
    induction h with
    | noElse => rfl
    | elseBranch _ ih | forStmt _ ih | forIn _ ih | forOf _ ih | whileStmt _ ih | labeled _ ih | body _ ih =>
      simpa only [endsInOpenIf] using ih

instance {c : Category} (t : Tree c) : Decidable t.EndsOpen := decidable_of_iff _ t.endsInOpenIf_iff

/-- A statement with blocks where an `else` would not go to its `if` otherwise: around each consequent
that ends in an `if` without `else` and has one behind it. -/
def brace : {c : Category} → Tree c → Tree c
  | _, ifStmt test consequent (some alternate) =>
    ifStmt test
      (if consequent.EndsOpen then .body (.blockStmt (.blockOf [(brace consequent).bodyStmt]))
        else brace consequent)
      (some (brace alternate))
  | _, ifStmt test consequent none => ifStmt test (brace consequent) none
  | _, whileStmt test inner => whileStmt test (brace inner)
  | _, doWhile test inner => doWhile test (brace inner)
  | _, forStmt init test step inner => forStmt init test step (brace inner)
  | _, labeled label inner => labeled label (brace inner)
  | _, blockStmt inner => blockStmt (brace inner)
  | _, stmts items => stmts (brace items)
  | _, cons head tail => cons (brace head) (brace tail)
  | _, body s => body (brace s)
  | _, t => t

/-- Statements of control around identifiers. The body of a label is no block: in braces, a label in front
of a block would be a property with an object. -/
inductive Skeleton : Stmt → Prop
  | exprStmt {text : String} {id : Option Nat} (h : IsIdentifier text) :
      Skeleton (.exprStmt (.identExpr (.ident text id)))
  | emptyStmt : Skeleton .emptyStmt
  | blockStmt {ss : List Stmt} (h : ∀ s ∈ ss, Skeleton s) : Skeleton (.blockStmt (.blockOf ss))
  | ifStmt {text : String} {id : Option Nat} {consequent : Stmt} (h : IsIdentifier text)
      (hc : Skeleton consequent) :
      Skeleton (.ifStmt (.identExpr (.ident text id)) (.body consequent) .none)
  | ifElse {text : String} {id : Option Nat} {consequent alternate : Stmt} (h : IsIdentifier text)
      (hc : Skeleton consequent) (ha : Skeleton alternate) :
      Skeleton (.ifStmt (.identExpr (.ident text id)) (.body consequent) (.some (.body alternate)))
  | whileStmt {text : String} {id : Option Nat} {s : Stmt} (h : IsIdentifier text) (hs : Skeleton s) :
      Skeleton (.whileStmt (.identExpr (.ident text id)) (.body s))
  | doWhile {text : String} {id : Option Nat} {s : Stmt} (h : IsIdentifier text) (hs : Skeleton s) :
      Skeleton (.doWhile (.identExpr (.ident text id)) (.body s))
  | forStmt {s : Stmt} (hs : Skeleton s) : Skeleton (.forStmt .none .none .none (.body s))
  | labeled {label : String} {s : Stmt} (h : IsIdentifier label) (hs : Skeleton s)
      (hblock : ∀ inner, s ≠ .blockStmt inner) : Skeleton (.labeled label (.body s))

/-- The tokens of a test in parentheses. -/
def testTokens : Expr → List Token
  | identExpr (ident text _) => [.mark "(", .word text, .mark ")"]
  | _ => []

/-- The tokens that a skeleton is written with. A name that could be taken for the beginning of a
declaration stands in parentheses, a consequent that would take the `else` in braces. -/
def tokens : {c : Category} → Tree c → List Token
  | _, exprStmt (identExpr (ident text _)) =>
    (if Printer.startsLikeDeclaration text then [.mark "(", .word text, .mark ")"] else [.word text]) ++
      [.mark ";"]
  | _, emptyStmt => [.mark ";"]
  | _, blockStmt inner => .mark "\x7b" :: (tokens inner ++ [.mark "\x7d"])
  | _, ifStmt test consequent none => .word "if" :: (testTokens test ++ tokens consequent)
  | _, ifStmt test consequent (some alternate) =>
    let first := tokens consequent
    .word "if" :: (testTokens test ++
      ((if consequent.EndsOpen then .mark "\x7b" :: (first ++ [.mark "\x7d"]) else first) ++
        .word "else" :: tokens alternate))
  | _, whileStmt test inner => .word "while" :: (testTokens test ++ tokens inner)
  | _, doWhile test inner =>
    .word "do" :: (tokens inner ++ .word "while" :: (testTokens test ++ [.mark ";"]))
  | _, forStmt _ _ _ inner =>
    .word "for" :: .mark "(" :: .mark ";" :: .mark ";" :: .mark ")" :: tokens inner
  | _, labeled label inner => .word label :: .mark ":" :: tokens inner
  | _, stmts items => tokens items
  | _, cons head tail => tokens head ++ tokens tail
  | _, body s => tokens s
  | _, _ => []

theorem tokens_blockOf (ss : List Stmt) : (blockOf ss).tokens = ss.flatMap tokens := by
  rw [blockOf, tokens]
  induction ss with
  | nil => rfl
  | cons s ss ih => rw [ofList, tokens, ih, List.flatMap_cons]

theorem brace_blockOf (ss : List Stmt) : (blockOf ss).brace = blockOf (ss.map brace) := by
  have hlist : (ofList ss).brace = ofList (ss.map brace) := by
    induction ss with
    | nil => rfl
    | cons s ss ih => exact congrArg (cons s.brace) ih
  exact congrArg stmts hlist

end Tree

end Unminify
