import Unminify.Proofs.Grammar.Scanning
import Unminify.Rule.Builtin

/-!
# The built-in rules, compiled

The built-in rules as data: what their texts compile to (`builtin_eq`). Most of them put braces around
the bodies of one form of statement. Such a rule has a *frame*, the form with holes, and its pattern
and its template differ only in how the bodies are written into the frame.

The rule for interop helpers stands apart, since what it makes depends on the names in scope.
-/

namespace Unminify

deriving instance DecidableEq for Tree
deriving instance DecidableEq for Pattern
deriving instance DecidableEq for Rule

/-! ## Texts by their characters -/

/-- The pattern that some characters spell. -/
def Pattern.spelled? (cs : List Char) : Option Pattern := do
  let script ← Grammar.scriptOf? cs
  let body ← script.reading.toOption
  (ofProgram ⟨body⟩ script.endsInSemicolon).toOption

theorem Pattern.toOption_compile (text : String) : (compile text).toOption = spelled? text.toList := by
  unfold compile Program.read endsInSemicolon spelled?
  rw [Grammar.parse?_eq]
  generalize Grammar.scriptOf? text.toList = script
  obtain - | ⟨reading, ends⟩ := script
  · rfl
  · cases reading <;> rfl

/-- The rule whose pattern and template some characters spell. -/
def Rule.spelled? (name : String) (pattern replacement : List Char) : Option Rule := do
  (ofPatterns name (← Pattern.spelled? pattern) (← Pattern.spelled? replacement)).toOption

theorem Rule.toOption_ofSpec (spec : RuleSpec) :
    (ofSpec spec).toOption = spelled? spec.name spec.pattern.toList spec.replacement.toList := by
  unfold ofSpec spelled?
  rw [← Pattern.toOption_compile, ← Pattern.toOption_compile]
  generalize Pattern.compile spec.pattern = found
  generalize Pattern.compile spec.replacement = made
  cases found <;> cases made <;> rfl

/-! ## The rules -/

/-- The built-in rules, but for the one for interop helpers. -/
inductive Builtin
  | notOne | notZero | voidZero
  | andStatement | orStatement | ternaryStatement
  | elseIfElse | elseIf | ifElse | ifAlone
  | whileLoop | doWhileLoop
  /-- A `for` loop; the arguments say which parts of the head are there. -/
  | forLoop (init test update : Bool)
  | forIn | forOf
deriving DecidableEq, Repr

namespace Builtin

/-- The rules in the order of the table. -/
def all : List Builtin :=
  [notOne, notZero, voidZero, andStatement, orStatement, ternaryStatement, elseIfElse, elseIf, ifElse,
    ifAlone, whileLoop, doWhileLoop, forLoop true true true, forLoop true true false,
    forLoop true false true, forLoop true false false, forLoop false true true,
    forLoop false true false, forLoop false false true, forLoop false false false, forIn, forOf]

theorem mem_all (b : Builtin) : b ∈ all := by
  cases b with
  | forLoop init test update => cases init <;> cases test <;> cases update <;> decide
  | _ => decide

/-- The name of a rule. -/
def name : Builtin → String
  | notOne => "not-one"
  | notZero => "not-zero"
  | voidZero => "void-zero"
  | andStatement => "and-statement"
  | orStatement => "or-statement"
  | ternaryStatement => "ternary-statement"
  | elseIfElse => "if-else-if-else-braces"
  | elseIf => "if-else-if-braces"
  | ifElse => "if-else-braces"
  | ifAlone => "if-braces"
  | whileLoop => "while-braces"
  | doWhileLoop => "do-while-braces"
  | forLoop init test update =>
    "for-" ++ cond init "init-" "" ++ cond test "test-" "" ++ cond update "update-" "" ++ "braces"
  | forIn => "for-in-braces"
  | forOf => "for-of-braces"

/-! ## Patterns and templates -/

/-- A hole for an expression. -/
def expression (n : Nat) : Expr := .exprHole n false

/-- A hole for a statement. -/
def statement (n : Nat) : Stmt := .stmtHole n false

/-- A hole for the head of a loop. -/
def head : Tree .forHead := .exprHead (.exprHole 1 true)

/-- A part that is there or not. -/
def optional {c : Category} (isThere : Bool) (t : Tree c) : Tree (.option c) :=
  cond isThere (.some t) .none

/-- A statement alone in braces. -/
def braces (s : Stmt) : Tree .body := .body (.blockStmt (.stmts (.cons s .nil)))

/-- The constant that a rule for expressions is about, and what is written for it. -/
def constant? : Builtin → Option (Expr × Expr)
  | notOne => some (.unary .not (.literal (.number ⟨0x3FF0000000000000⟩)), .literal (.bool false))
  | notZero => some (.unary .not (.literal (.number ⟨0⟩)), .literal (.bool true))
  | voidZero => some (.unary .void (.literal (.number ⟨0⟩)), .identExpr (.ident "undefined" none))
  | _ => none

/-- The statement that a rule is about, with `around` written around the bodies that it puts in
braces. -/
def frame (around : Stmt → Tree .body) : Builtin → Stmt
  | elseIfElse =>
    .ifStmt (expression 1) (around (statement 1)) (.some (.body
      (.ifStmt (expression 2) (.body (statement 2)) (.some (.body (statement 3))))))
  | elseIf =>
    .ifStmt (expression 1) (around (statement 1)) (.some (.body
      (.ifStmt (expression 2) (.body (statement 2)) .none)))
  | ifElse => .ifStmt (expression 1) (around (statement 1)) (.some (around (statement 2)))
  | ifAlone => .ifStmt (expression 1) (around (statement 1)) .none
  | whileLoop => .whileStmt (expression 1) (around (statement 1))
  | doWhileLoop => .doWhile (expression 1) (around (statement 1))
  | forLoop init test update =>
    .forStmt (optional init head) (optional test (expression 2)) (optional update (expression 3))
      (around (statement 1))
  | forIn => .forIn head (expression 2) (around (statement 1))
  | forOf => .forOf false head (expression 2) (around (statement 1))
  -- the other rules have no frame
  | _ => .emptyStmt

/-- What a rule matches, and what it puts in its place. -/
def sides (b : Builtin) : Pattern × Pattern :=
  match b, b.constant? with
  | _, some (found, written) => (.expr found, .expr written)
  | andStatement, _ =>
    (.stmt (.exprStmt (.binary .and (expression 1) (expression 2))),
      .stmt (.ifStmt (expression 1) (braces (.exprStmt (expression 2))) .none))
  | orStatement, _ =>
    (.stmt (.exprStmt (.binary .or (expression 1) (expression 2))),
      .stmt (.ifStmt (.unary .not (expression 1)) (braces (.exprStmt (expression 2))) .none))
  | ternaryStatement, _ =>
    (.stmt (.exprStmt (.conditional (expression 1) (expression 2) (expression 3))),
      .stmt (.ifStmt (expression 1) (braces (.exprStmt (expression 2)))
        (.some (braces (.exprStmt (expression 3))))))
  | b, _ => (.stmt (frame .body b), .stmt (frame braces b))

/-- The compiled rule. -/
def rule (b : Builtin) : Rule where
  name := b.name
  pattern := b.sides.1
  replacement := b.sides.2
  agree := by cases b <;> rfl

/-- The helper that gives a module's default export, with its name and its parameter. -/
def interopHelper (name param : Name) : Stmt :=
  .functionStmt (.function false false (.some name) (.cons (.nameBinder param) .nil)
    (.stmts (.cons (.returnStmt (.some (.conditional
      (.binary .and (.identExpr param)
        (.access false false (.identExpr param) (.literal (.string "__esModule"))))
      (.identExpr param)
      (.object (.cons (.keyed (.nameKey "default") (.identExpr param)) .nil))))) .nil)))

/-- The rule that gives helpers their usual name. -/
def interopRule : Rule where
  name := "interop-require-default"
  pattern := .stmt (interopHelper (.nameHole 1) (.nameHole 2))
  replacement := .stmt (interopHelper (.ident "_interopRequireDefault" none) (.ident "obj" none))
  agree := rfl

/-! ## Compiled texts -/

/-- What the texts of rules compile to. -/
def compiled (specs : List RuleSpec) : List (Option Rule) :=
  specs.map fun spec => (Rule.ofSpec spec).toOption

/-- The texts of the built-in rules, from one on. -/
def specsFrom (n : Nat) : List RuleSpec := RuleTable.builtinSpecs.drop n

/-- The built-in rules, from one on. -/
def rulesFrom (n : Nat) : List Rule := (all.map rule ++ [interopRule]).drop n

theorem compiled_specsFrom {n : Nat} (m : Nat)
    (hfirst : compiled ((specsFrom n).take m) = ((rulesFrom n).take m).map some)
    (hrest : compiled (specsFrom (n + m)) = (rulesFrom (n + m)).map some) :
    compiled (specsFrom n) = (rulesFrom n).map some := by
  have hspecs : specsFrom n = (specsFrom n).take m ++ specsFrom (n + m) := by
    rw [specsFrom, specsFrom, ← List.drop_drop, List.take_append_drop]
  have hrules : rulesFrom n = (rulesFrom n).take m ++ rulesFrom (n + m) := by
    rw [rulesFrom, rulesFrom, ← List.drop_drop, List.take_append_drop]
  rw [hspecs, hrules, List.map_append, ← hfirst, ← hrest]
  exact List.map_append

-- Reading a text takes the kernel its time and some memory, so the texts are read a few at a time. It
-- decodes a string slowly, so the characters are taken out of each text beforehand.
section

set_option maxRecDepth 100000

/-- Constants, expressions used for control flow, and conditionals. -/
theorem compiled_conditionals : compiled ((specsFrom 0).take 10) = ((rulesFrom 0).take 10).map some := by
  simp only [compiled, specsFrom, RuleTable.builtinSpecs, List.drop_zero, List.take_succ_cons,
    List.take_zero, List.map_cons, List.map_nil, Rule.toOption_ofSpec]
  repeat rw [String.toList_ofList]
  decide +kernel

/-- Loops, up to those that have a beginning and neither a test nor an update. -/
theorem compiled_loops : compiled ((specsFrom 10).take 6) = ((rulesFrom 10).take 6).map some := by
  simp only [compiled, specsFrom, RuleTable.builtinSpecs, List.drop_succ_cons, List.drop_zero,
    List.take_succ_cons, List.take_zero, List.map_cons, List.map_nil, Rule.toOption_ofSpec]
  repeat rw [String.toList_ofList]
  decide +kernel

/-- The other loops, and the interop helper. -/
theorem compiled_rest : compiled (specsFrom 16) = (rulesFrom 16).map some := by
  simp only [compiled, specsFrom, RuleTable.builtinSpecs, List.drop_succ_cons, List.drop_zero,
    List.map_cons, List.map_nil, Rule.toOption_ofSpec]
  repeat rw [String.toList_ofList]
  decide +kernel

end

/-- The texts of the built-in rules compile to these rules. -/
theorem ofSpec_builtinSpecs :
    RuleTable.builtinSpecs.map (fun spec => (Rule.ofSpec spec).toOption) =
      (all.map rule ++ [interopRule]).map some :=
  compiled_specsFrom 10 compiled_conditionals (compiled_specsFrom 6 compiled_loops compiled_rest)

end Builtin

namespace RuleTable

/-! ## The table -/

theorem get?_eq_none {t : RuleTable} {name : String} (h : name ∉ t.names) : t.get? name = none := by
  rw [get?, List.find?_eq_none]
  intro r hr heq
  exact h (List.mem_map.mpr ⟨r, hr, beq_iff_eq.mp heq⟩)

/-- Texts that compile to rules with new names extend a table by these rules. -/
theorem pushSpecs_eq {t : RuleTable} {specs : List RuleSpec} {rules : List Rule}
    (h : specs.map (fun spec => (Rule.ofSpec spec).toOption) = rules.map some)
    (hnames : (t.names ++ rules.map (·.name)).Nodup) :
    t.pushSpecs specs = .ok { t with rules := t.rules ++ rules } := by
  induction specs generalizing t rules with
  | nil =>
    obtain rfl := List.map_eq_nil_iff.mp h.symm
    rw [List.append_nil]
    rfl
  | cons spec specs ih =>
    obtain ⟨r, rules, rfl, hr, hrules⟩ := List.map_eq_cons_iff.mp h.symm
    replace hr : some r = (Rule.ofSpec spec).toOption := hr
    have hspec : Rule.ofSpec spec = .ok r := by
      cases hspec : Rule.ofSpec spec with
      | error e => rw [hspec] at hr; cases hr
      | ok r' => rw [hspec] at hr; cases hr; rfl
    have hnew : r.name ∉ t.names := by
      intro hmem
      rw [List.map_cons, List.nodup_append] at hnames
      exact hnames.2.2 r.name hmem r.name List.mem_cons_self rfl
    have hpush : t.push r = .ok { t with rules := t.rules ++ [r] } := by
      rw [push, get?_eq_none hnew]
    have hrest : ({ t with rules := t.rules ++ [r] } : RuleTable).pushSpecs specs = _ :=
      ih hrules.symm (by simpa [names] using hnames)
    rw [pushSpecs, List.foldlM_cons, hspec]
    show (t.push r >>= _) = _
    rw [hpush]
    refine hrest.trans ?_
    rw [List.append_assoc, List.singleton_append]

/-- The table of the built-in rules. -/
theorem builtin_eq :
    builtin = .ok { rules := Builtin.all.map Builtin.rule ++ [Builtin.interopRule] } :=
  pushSpecs_eq Builtin.ofSpec_builtinSpecs (by decide +kernel)

end RuleTable

end Unminify
