import Unminify.Proofs.Pattern.Filling
import Unminify.Proofs.Rule.Compiled

/-!
# What the built-in rules do

The effect of each built-in rule, said without patterns. A rule for statements looks only at the
*silhouette* of a statement: its form, which parts of a `for` head are there, and whether the other
branch of an `if` is an `if` again. Where it accepts the silhouette it makes `recast` of the
statement, and elsewhere it does nothing (`applyToStmt?_rule`). A rule for expressions recognizes one
constant (`applyToExpr?_rule`).

A declaration in the head of a loop is taken to have no holes, since they would be filled once more.
-/

namespace Unminify

/-! ## Silhouettes -/

/-- A body in braces: a block stays as it is, and nothing at all becomes an empty block. -/
def Tree.braced : Tree .body → Tree .body
  | .body (.blockStmt inner) => .body (.blockStmt inner)
  | .body (.sequence inner) => .body (.blockStmt inner)
  | .body .emptyStmt => .body (.blockStmt (.stmts .nil))
  | .body s => Builtin.braces s

/-- What the built-in rules see of a statement. -/
inductive Silhouette
  /-- The statements `a && b;`, `a || b;` and `a ? b : c;`. -/
  | conjunction | disjunction | choice
  /-- An `if`, with the fork of its other branch if there is one. -/
  | branch (alternate : Option (Option Bool))
  | whileLoop | doWhileLoop
  | forLoop (init test update : Bool)
  | forIn | forOf
  | other
deriving DecidableEq, Repr

/-- Whether a statement is an `if`, and then whether it has another branch. -/
def Tree.fork : Stmt → Option Bool
  | .ifStmt _ _ alternate => Option.some alternate.toOption.isSome
  | _ => Option.none

/-- The silhouette of a statement. -/
def Tree.silhouette : Stmt → Silhouette
  | .exprStmt (.binary .and _ _) => .conjunction
  | .exprStmt (.binary .or _ _) => .disjunction
  | .exprStmt (.conditional _ _ _) => .choice
  | .ifStmt _ _ alternate => .branch (alternate.toOption.map (·.bodyStmt.fork))
  | .whileStmt _ _ => .whileLoop
  | .doWhile _ _ => .doWhileLoop
  | .forStmt init test step _ =>
    .forLoop init.toOption.isSome test.toOption.isSome step.toOption.isSome
  | .forIn _ _ _ => .forIn
  | .forOf false _ _ _ => .forOf
  | _ => .other

/-- The declaration that a loop head is. -/
def Tree.declaration? : Tree .forHead → Option VarDecl
  | .declHead d => Option.some d
  | .exprHead _ => Option.none

/-- The declaration in the head of a loop. -/
def Tree.headDeclaration? : Stmt → Option VarDecl
  | .forStmt init _ _ _ => init.toOption.bind declaration?
  | .forIn left _ _ => left.declaration?
  | .forOf _ left _ _ => left.declaration?
  | _ => Option.none

theorem Tree.holes_declaration? {t : Tree .forHead} {d : VarDecl} (ht : t.holes = [])
    (h : t.declaration? = Option.some d) : d.holes = [] := by
  cases t with
  | declHead d' => cases h; exact holes_part ht List.mem_cons_self
  | exprHead e => cases h

theorem Tree.holes_headDeclaration? {s : Stmt} {d : VarDecl} (hs : s.holes = [])
    (h : s.headDeclaration? = Option.some d) : d.holes = [] := by
  cases s with
  | forStmt init test step inner =>
    cases init with
    | none => cases h
    | some left =>
      have hinit : (Tree.some left).holes = [] := holes_part hs List.mem_cons_self
      exact holes_declaration? (holes_part hinit List.mem_cons_self) h
  | forIn left right inner => exact holes_declaration? (holes_part hs List.mem_cons_self) h
  | forOf isAwait left right inner => exact holes_declaration? (holes_part hs List.mem_cons_self) h
  | _ => cases h

namespace Builtin

/-- Whether a rule applies to statements of a silhouette. -/
def accepts : Builtin → Silhouette → Bool
  | andStatement, .conjunction => true
  | orStatement, .disjunction => true
  | ternaryStatement, .choice => true
  | elseIfElse, .branch (some (some true)) => true
  | elseIf, .branch (some (some false)) => true
  | ifElse, .branch (some _) => true
  | ifAlone, .branch none => true
  | whileLoop, .whileLoop => true
  | doWhileLoop, .doWhileLoop => true
  | forLoop init test update, .forLoop init' test' update' =>
    init == init' && (test == test' && update == update')
  | forIn, .forIn => true
  | forOf, .forOf => true
  | _, _ => false

theorem not_accepts_other (b : Builtin) : ¬b.accepts .other = true := by
  cases b <;> exact Bool.false_ne_true

/-- What a rule makes of a statement whose silhouette it accepts. -/
def recast : Builtin → Stmt → Stmt
  | _, .exprStmt (.binary .and left right) => .ifStmt left (braces (.exprStmt right)) .none
  | _, .exprStmt (.binary .or left right) => .ifStmt (.unary .not left) (braces (.exprStmt right)) .none
  | _, .exprStmt (.conditional test left right) =>
    .ifStmt test (braces (.exprStmt left)) (.some (braces (.exprStmt right)))
  | ifElse, .ifStmt test body (.some alternate) => .ifStmt test body.braced (.some alternate.braced)
  | _, .ifStmt test body alternate => .ifStmt test body.braced alternate
  | _, .whileStmt test body => .whileStmt test body.braced
  | _, .doWhile test body => .doWhile test body.braced
  | _, .forStmt init test step body => .forStmt init test step body.braced
  | _, .forIn left right body => .forIn left right body.braced
  | _, .forOf isAwait left right body => .forOf isAwait left right body.braced
  | _, s => s

/-! ## Filled templates -/

section

open Pattern

variable {env : Environment} {depth n : Nat}

theorem fill_expression {e : Expr} (h : env.get? ⟨.expression, n⟩ = some (.expr e)) :
    (expression n).visit (fillHook env depth) = .ok e := by
  unfold expression Tree.visit fillHook
  simp only [h]

theorem fill_statement {s : Stmt} (h : env.get? ⟨.statement, n⟩ = some (.stmt s)) :
    (statement n).visit (fillHook env depth) = .ok s := by
  unfold statement Tree.visit fillHook
  simp only [h]

/-- A form that is no hole is filled part by part. -/
theorem fill_form {c : Category} {p t : Tree c} (us : List Phrase) (hhole : p.hole? = none)
    (hlone : p.loneHole = false) (hhead : p.headHole? = none) (ht : p.rebuild us = t)
    (h : Tree.Related (fun _ q u => q.visit (fillHook env depth) = .ok u) p.visited us) :
    p.visit (fillHook env depth) = .ok t := by
  rw [← ht]
  refine visit_of_parts hhole hlone ?_ h
  intro i hi
  rw [hhead] at hi
  cases hi

theorem fill_none {c : Category} :
    (Tree.none : Tree (.option c)).visit (fillHook env depth) = .ok .none :=
  fill_form [] rfl rfl rfl rfl .nil

theorem fill_some {c : Category} {p t : Tree c}
    (h : p.visit (fillHook env depth) = .ok t) :
    (Tree.some p).visit (fillHook env depth) = .ok (.some t) :=
  fill_form [⟨_, t⟩] rfl rfl rfl (congrArg Tree.some (Tree.partAt_zero t p [])) (.cons h .nil)

theorem fill_if {test t : Expr} {body b : Tree .body}
    {alternate a : Tree (.option .body)} (htest : test.visit (fillHook env depth) = .ok t)
    (hbody : body.visit (fillHook env depth) = .ok b)
    (halternate : alternate.visit (fillHook env depth) = .ok a) :
    (Tree.ifStmt test body alternate).visit (fillHook env depth) = .ok (.ifStmt t b a) :=
  fill_form [⟨_, t⟩, ⟨_, b⟩, ⟨_, a⟩] rfl rfl rfl rfl (.cons htest (.cons hbody (.cons halternate .nil)))

theorem fill_bodyOf {p s : Stmt} (h : p.visit (fillHook env depth) = .ok s) :
    (Tree.body p).visit (fillHook env depth) = .ok (.body s) :=
  fill_form [⟨_, s⟩] rfl rfl rfl rfl (.cons h .nil)

theorem fill_body {s : Stmt} (h : env.get? ⟨.statement, n⟩ = some (.stmt s)) :
    (Tree.body (statement n)).visit (fillHook env depth) = .ok (.body s) :=
  fill_bodyOf (fill_statement h)

theorem adopted?_statement {s : Stmt} (h : env.get? ⟨.statement, n⟩ = some (.stmt s)) :
    adopted? env (.stmts (.cons (statement n) .nil)) =
      match s with
      | .blockStmt inner | .sequence inner => some inner
      | .emptyStmt => some (.stmts .nil)
      | _ => none := by
  unfold adopted?
  simp only [Tree.statements, Tree.toList_cons, Tree.toList_nil, statement, h]
  cases s <;> rfl

/-- A list of one statement. -/
theorem fill_singleton {t s : Stmt} (h : t.visit (fillHook env depth) = .ok s) :
    (Tree.stmts (.cons t .nil)).visit (fillHook env depth) = .ok (.stmts (.cons s .nil)) := by
  have hnil : (Tree.nil : Tree (.list .stmt)).visit (fillHook env depth) = .ok .nil :=
    fill_form [] rfl rfl rfl rfl .nil
  have hitems : (Tree.cons t .nil).visit (fillHook env depth) = .ok (.cons s .nil) :=
    fill_form [⟨_, s⟩, ⟨_, .nil⟩] rfl rfl rfl rfl (.cons h (.cons hnil .nil))
  exact fill_form [⟨_, .cons s .nil⟩] rfl rfl rfl rfl (.cons hitems .nil)

/-- Braces around a statement hole are the braces of what it stands for. -/
theorem fill_braces {s : Stmt} (h : env.get? ⟨.statement, n⟩ = some (.stmt s)) :
    (braces (statement n)).visit (fillHook env depth) = .ok (Tree.body s).braced := by
  have hwalk : (Tree.blockStmt (.stmts (.cons (statement n) .nil))).descend (fillHook env depth) =
      .ok (.blockStmt (.stmts (.cons s .nil))) := by
    show (Tree.visit (fillHook env depth) _ >>= fun inner => pure (Tree.blockStmt inner)) = _
    rw [fill_singleton (fill_statement h)]
    rfl
  have hblock : (Tree.blockStmt (.stmts (.cons (statement n) .nil))).visit (fillHook env depth) =
      .ok (Tree.body s).braced.bodyStmt := by
    rw [Tree.visit, fillHook_block, adopted?_statement h]
    cases s with
    | blockStmt _ => rfl
    | sequence _ => rfl
    | emptyStmt => rfl
    | _ => exact hwalk
  refine fill_form [⟨_, (Tree.body s).braced.bodyStmt⟩] rfl rfl rfl ?_ (.cons hblock .nil)
  cases s <;> rfl

/-- Braces around an expression hole used as a statement. -/
theorem fill_bracesExpr {e : Expr} (h : env.get? ⟨.expression, n⟩ = some (.expr e)) :
    (braces (.exprStmt (expression n))).visit (fillHook env depth) = .ok (braces (.exprStmt e)) := by
  have hstmt : (Tree.exprStmt (expression n)).visit (fillHook env depth) = .ok (.exprStmt e) :=
    fill_form [⟨_, e⟩] rfl rfl rfl rfl (.cons (fill_expression h) .nil)
  have hblock : (Tree.blockStmt (.stmts (.cons (.exprStmt (expression n)) .nil))).visit
      (fillHook env depth) = .ok (.blockStmt (.stmts (.cons (.exprStmt e) .nil))) :=
    fill_form [⟨_, .stmts (.cons (.exprStmt e) .nil)⟩] rfl rfl rfl rfl (.cons (fill_singleton hstmt) .nil)
  exact fill_form [⟨_, .blockStmt (.stmts (.cons (.exprStmt e) .nil))⟩] rfl rfl rfl rfl
    (.cons hblock .nil)

/-- What the hole for a loop head is bound to. -/
def headBound : Tree .forHead → Bound
  | .exprHead e => .expr e
  | .declHead d => .decl d

theorem fill_head {t : Tree .forHead} (h : env.get? ⟨.expression, 1⟩ = some (headBound t))
    (hholes : ∀ d, t.declaration? = some d → d.holes = []) :
    head.visit (fillHook env depth) = .ok t := by
  cases t with
  | declHead d => exact visit_head h (hholes d rfl)
  | exprHead e =>
    rw [head, Tree.visit, fillHook_head, h]
    show (Tree.visit (fillHook env depth) _ >>= fun e => pure (Tree.exprHead e)) = _
    unfold Tree.visit fillHook
    simp only [h, headBound]
    rfl

end

/-! ## Statements of an accepted form -/

section

open Pattern

variable (options : MatchOptions)

theorem applyToStmt?_of_match {r : Rule} {s p t u : Stmt} {env : Environment}
    (hpattern : r.pattern = .stmt p) (hkind : p.kind ≠ .sequence) (htemplate : r.replacement = .stmt t)
    (hmatch : matchTree options p s = some env) (hfill : fillTree env t = .ok u) :
    r.applyToStmt? options s = some (.ok u) := by
  unfold Rule.applyToStmt?
  rw [hpattern, htemplate]
  cases p with
  | sequence _ => exact absurd rfl hkind
  | _ => simp only [hmatch, hfill, Option.bind_eq_bind, Option.bind_some]; rfl

theorem apply_and (left right : Expr) :
    andStatement.rule.applyToStmt? options (.exprStmt (.binary .and left right)) =
      some (.ok (.ifStmt left (braces (.exprStmt right)) .none)) :=
  applyToStmt?_of_match options rfl nofun rfl rfl
    (fill_if (fill_expression rfl) (fill_bracesExpr rfl) fill_none)

theorem apply_or (left right : Expr) :
    orStatement.rule.applyToStmt? options (.exprStmt (.binary .or left right)) =
      some (.ok (.ifStmt (.unary .not left) (braces (.exprStmt right)) .none)) :=
  applyToStmt?_of_match options rfl nofun rfl rfl
    (fill_if (fill_form [⟨_, left⟩] rfl rfl rfl rfl (.cons (fill_expression rfl) .nil))
      (fill_bracesExpr rfl) fill_none)

theorem apply_ternary (test left right : Expr) :
    ternaryStatement.rule.applyToStmt? options (.exprStmt (.conditional test left right)) =
      some (.ok (.ifStmt test (braces (.exprStmt left)) (.some (braces (.exprStmt right))))) :=
  applyToStmt?_of_match options rfl nofun rfl rfl
    (fill_if (fill_expression rfl) (fill_bracesExpr rfl) (fill_some (fill_bracesExpr rfl)))

theorem apply_elseIfElse (test test' : Expr) (s s' s'' : Stmt) :
    elseIfElse.rule.applyToStmt? options
        (.ifStmt test (.body s) (.some (.body (.ifStmt test' (.body s') (.some (.body s'')))))) =
      some (.ok (.ifStmt test (Tree.body s).braced
        (.some (.body (.ifStmt test' (.body s') (.some (.body s''))))))) := by
  have hmatch : matchTree options (frame .body elseIfElse)
      (.ifStmt test (.body s) (.some (.body (.ifStmt test' (.body s') (.some (.body s'')))))) =
        some ⟨[(⟨.expression, 1⟩, .expr test), (⟨.statement, 1⟩, .stmt s), (⟨.expression, 2⟩, .expr test'),
          (⟨.statement, 2⟩, .stmt s'), (⟨.statement, 3⟩, .stmt s'')]⟩ := rfl
  exact applyToStmt?_of_match options rfl nofun rfl hmatch (fill_if (fill_expression rfl) (fill_braces rfl)
    (fill_some (fill_bodyOf (fill_if (fill_expression rfl) (fill_body rfl) (fill_some (fill_body rfl))))))

theorem apply_elseIf (test test' : Expr) (s s' : Stmt) :
    elseIf.rule.applyToStmt? options
        (.ifStmt test (.body s) (.some (.body (.ifStmt test' (.body s') .none)))) =
      some (.ok (.ifStmt test (Tree.body s).braced
        (.some (.body (.ifStmt test' (.body s') .none))))) := by
  have hmatch : matchTree options (frame .body elseIf)
      (.ifStmt test (.body s) (.some (.body (.ifStmt test' (.body s') .none)))) =
        some ⟨[(⟨.expression, 1⟩, .expr test), (⟨.statement, 1⟩, .stmt s), (⟨.expression, 2⟩, .expr test'),
          (⟨.statement, 2⟩, .stmt s')]⟩ := rfl
  exact applyToStmt?_of_match options rfl nofun rfl hmatch (fill_if (fill_expression rfl) (fill_braces rfl)
    (fill_some (fill_bodyOf (fill_if (fill_expression rfl) (fill_body rfl) fill_none))))

theorem apply_ifElse (test : Expr) (s s' : Stmt) :
    ifElse.rule.applyToStmt? options (.ifStmt test (.body s) (.some (.body s'))) =
      some (.ok (.ifStmt test (Tree.body s).braced (.some (Tree.body s').braced))) :=
  applyToStmt?_of_match options rfl nofun rfl rfl
    (fill_if (fill_expression rfl) (fill_braces rfl) (fill_some (fill_braces rfl)))

theorem apply_ifAlone (test : Expr) (s : Stmt) :
    ifAlone.rule.applyToStmt? options (.ifStmt test (.body s) .none) =
      some (.ok (.ifStmt test (Tree.body s).braced .none)) :=
  applyToStmt?_of_match options rfl nofun rfl rfl
    (fill_if (fill_expression rfl) (fill_braces rfl) fill_none)

theorem apply_while (test : Expr) (s : Stmt) :
    whileLoop.rule.applyToStmt? options (.whileStmt test (.body s)) =
      some (.ok (.whileStmt test (Tree.body s).braced)) :=
  applyToStmt?_of_match options rfl nofun rfl rfl
    (fill_form [⟨_, test⟩, ⟨_, (Tree.body s).braced⟩] rfl rfl rfl rfl
      (.cons (fill_expression rfl) (.cons (fill_braces rfl) .nil)))

theorem apply_doWhile (test : Expr) (s : Stmt) :
    doWhileLoop.rule.applyToStmt? options (.doWhile test (.body s)) =
      some (.ok (.doWhile test (Tree.body s).braced)) :=
  applyToStmt?_of_match options rfl nofun rfl rfl
    (fill_form [⟨_, test⟩, ⟨_, (Tree.body s).braced⟩] rfl rfl rfl rfl
      (.cons (fill_expression rfl) (.cons (fill_braces rfl) .nil)))

theorem apply_forIn (left : Tree .forHead) (right : Expr) (s : Stmt)
    (h : ∀ d, left.declaration? = some d → d.holes = []) :
    forIn.rule.applyToStmt? options (.forIn left right (.body s)) =
      some (.ok (.forIn left right (Tree.body s).braced)) := by
  have hmatch : matchTree options (.forIn head (expression 2) (.body (statement 1)))
      (.forIn left right (.body s)) = some ⟨[(⟨.expression, 1⟩, headBound left),
        (⟨.expression, 2⟩, .expr right), (⟨.statement, 1⟩, .stmt s)]⟩ := by
    cases left <;> rfl
  exact applyToStmt?_of_match options rfl nofun rfl hmatch
    (fill_form [⟨_, left⟩, ⟨_, right⟩, ⟨_, (Tree.body s).braced⟩] rfl rfl rfl rfl
      (.cons (fill_head rfl h) (.cons (fill_expression rfl) (.cons (fill_braces rfl) .nil))))

theorem apply_forOf (left : Tree .forHead) (right : Expr) (s : Stmt)
    (h : ∀ d, left.declaration? = some d → d.holes = []) :
    forOf.rule.applyToStmt? options (.forOf false left right (.body s)) =
      some (.ok (.forOf false left right (Tree.body s).braced)) := by
  have hmatch : matchTree options (.forOf false head (expression 2) (.body (statement 1)))
      (.forOf false left right (.body s)) = some ⟨[(⟨.expression, 1⟩, headBound left),
        (⟨.expression, 2⟩, .expr right), (⟨.statement, 1⟩, .stmt s)]⟩ := by
    cases left <;> rfl
  exact applyToStmt?_of_match options rfl nofun rfl hmatch
    (fill_form [⟨_, left⟩, ⟨_, right⟩, ⟨_, (Tree.body s).braced⟩] rfl rfl rfl rfl
      (.cons (fill_head rfl h) (.cons (fill_expression rfl) (.cons (fill_braces rfl) .nil))))

/-- What the holes of a rule for `for` loops are bound to, as far as the parts of the head are there. -/
def forBound (init : Tree (.option .forHead)) (test step : Tree (.option .expr)) (s : Stmt) : Environment where
  entries :=
    (init.toOption.map fun left => (⟨.expression, 1⟩, headBound left)).toList ++
      ((test.toOption.map fun e => (⟨.expression, 2⟩, .expr e)).toList ++
        ((step.toOption.map fun e => (⟨.expression, 3⟩, .expr e)).toList ++ [(⟨.statement, 1⟩, .stmt s)]))

theorem apply_for (init : Tree (.option .forHead)) (test step : Tree (.option .expr)) (s : Stmt)
    (h : ∀ d, init.toOption.bind Tree.declaration? = some d → d.holes = []) :
    (forLoop init.toOption.isSome test.toOption.isSome step.toOption.isSome).rule.applyToStmt? options
        (.forStmt init test step (.body s)) =
      some (.ok (.forStmt init test step (Tree.body s).braced)) := by
  have hmatch : matchTree options
      (frame .body (forLoop init.toOption.isSome test.toOption.isSome step.toOption.isSome))
      (.forStmt init test step (.body s)) = some (forBound init test step s) := by
    cases init with
    | none => cases test <;> cases step <;> rfl
    | some left => cases left <;> cases test <;> cases step <;> rfl
  have hinit (depth : Nat) :
      (optional init.toOption.isSome head).visit (fillHook (forBound init test step s) depth) = .ok init := by
    cases init with
    | none => exact fill_none
    | some left => exact fill_some (fill_head rfl h)
  have htest (depth : Nat) : (optional test.toOption.isSome (expression 2)).visit
      (fillHook (forBound init test step s) depth) = .ok test := by
    cases test with
    | none => exact fill_none
    | some e => exact fill_some (fill_expression (by cases init <;> rfl))
  have hstep (depth : Nat) : (optional step.toOption.isSome (expression 3)).visit
      (fillHook (forBound init test step s) depth) = .ok step := by
    cases step with
    | none => exact fill_none
    | some e => exact fill_some (fill_expression (by cases init <;> cases test <;> rfl))
  have hbody (depth : Nat) :
      (braces (statement 1)).visit (fillHook (forBound init test step s) depth) = .ok (Tree.body s).braced :=
    fill_braces (by cases init <;> cases test <;> cases step <;> rfl)
  exact applyToStmt?_of_match options rfl nofun rfl hmatch
    (fill_form [⟨_, init⟩, ⟨_, test⟩, ⟨_, step⟩, ⟨_, (Tree.body s).braced⟩] rfl rfl rfl rfl
      (.cons (hinit _) (.cons (htest _) (.cons (hstep _) (.cons (hbody _) .nil)))))

theorem apply_for_of_ne {i t u : Bool} (init : Tree (.option .forHead))
    (test step : Tree (.option .expr)) (s : Stmt)
    (h : (forLoop i t u).accepts (Tree.forStmt init test step (.body s)).silhouette = false) :
    (forLoop i t u).rule.applyToStmt? options (.forStmt init test step (.body s)) = none := by
  change (i == _ && (t == _ && u == _)) = false at h
  -- the first part of the head that is there for one of the two only decides
  by_cases hi : i = init.toOption.isSome
  · by_cases ht : t = test.toOption.isSome
    · have hu : u ≠ step.toOption.isSome := by
        rintro rfl
        rw [hi, ht] at h
        simp at h
      subst hi ht
      cases init with
      | none => cases test <;> cases step <;> cases u <;> first | exact absurd rfl hu | rfl
      | some left => cases left <;> cases test <;> cases step <;> cases u <;> first | exact absurd rfl hu | rfl
    · subst hi
      cases init with
      | none => cases test <;> cases t <;> first | exact absurd rfl ht | rfl
      | some left => cases left <;> cases test <;> cases t <;> first | exact absurd rfl ht | rfl
  · cases init <;> cases i <;> first | exact absurd rfl hi | rfl

theorem applyToStmt?_forLoop (i t u : Bool) (init : Tree (.option .forHead))
    (test step : Tree (.option .expr)) (s : Stmt)
    (hinit : ∀ d, init.toOption.bind Tree.declaration? = some d → d.holes = []) :
    (forLoop i t u).rule.applyToStmt? options (.forStmt init test step (.body s)) =
      if (forLoop i t u).accepts (Tree.forStmt init test step (.body s)).silhouette = true then
        some (.ok (.forStmt init test step (Tree.body s).braced))
      else none := by
  split
  · rename_i haccepts
    change (_ == _ && (_ == _ && _ == _)) = true at haccepts
    simp only [Bool.and_eq_true, beq_iff_eq] at haccepts
    obtain ⟨rfl, rfl, rfl⟩ := haccepts
    exact apply_for options init test step s hinit
  · rename_i haccepts
    exact apply_for_of_ne options init test step s (Bool.eq_false_iff.mpr haccepts)

theorem applyToStmt?_elseIfElse (test : Expr) (s s' : Stmt) :
    elseIfElse.rule.applyToStmt? options (.ifStmt test (.body s) (.some (.body s'))) =
      if elseIfElse.accepts (.branch (some s'.fork)) = true then
        some (.ok (elseIfElse.recast (.ifStmt test (.body s) (.some (.body s')))))
      else none := by
  cases s' with
  | ifStmt test' consequent' alternate' =>
    cases consequent' with
    | body s' =>
      cases alternate' with
      | none => rfl
      | some alternate' =>
        cases alternate' with
        | body s'' => exact apply_elseIfElse options test test' s s' s''
  | _ => rfl

theorem applyToStmt?_elseIf (test : Expr) (s s' : Stmt) :
    elseIf.rule.applyToStmt? options (.ifStmt test (.body s) (.some (.body s'))) =
      if elseIf.accepts (.branch (some s'.fork)) = true then
        some (.ok (elseIf.recast (.ifStmt test (.body s) (.some (.body s')))))
      else none := by
  cases s' with
  | ifStmt test' consequent' alternate' =>
    cases consequent' with
    | body s' =>
      cases alternate' with
      | none => exact apply_elseIf options test test' s s'
      | some alternate' => rfl
  | _ => rfl

theorem applyToStmt?_ifElse (b : Builtin) (test : Expr) (s s' : Stmt) :
    b.rule.applyToStmt? options (.ifStmt test (.body s) (.some (.body s'))) =
      if b.accepts (.branch (some s'.fork)) = true then
        some (.ok (b.recast (.ifStmt test (.body s) (.some (.body s')))))
      else none := by
  cases b with
  | elseIfElse => exact applyToStmt?_elseIfElse options test s s'
  | elseIf => exact applyToStmt?_elseIf options test s s'
  | ifElse => exact apply_ifElse options test s s'
  | _ => rfl

theorem silhouette_exprStmt_cases (e : Expr) :
    (Tree.exprStmt e).silhouette = .conjunction ∨ (Tree.exprStmt e).silhouette = .disjunction ∨
      (Tree.exprStmt e).silhouette = .choice ∨ (Tree.exprStmt e).silhouette = .other := by
  cases e with
  | binary op left right =>
    cases op with
    | and => exact .inl rfl
    | or => exact .inr (.inl rfl)
    | _ => exact .inr (.inr (.inr rfl))
  | conditional test left right => exact .inr (.inr (.inl rfl))
  | _ => exact .inr (.inr (.inr rfl))

/-- Three of the rules are for expressions that are used as statements. -/
theorem applyToStmt?_exprStmt (b : Builtin) (e : Expr) :
    b.rule.applyToStmt? options (.exprStmt e) =
      if b.accepts (Tree.exprStmt e).silhouette = true then some (.ok (b.recast (.exprStmt e))) else none := by
  cases b with
  | andStatement =>
    cases e with
    | binary op left right =>
      cases op with
      | and => exact apply_and options left right
      | _ => rfl
    | _ => rfl
  | orStatement =>
    cases e with
    | binary op left right =>
      cases op with
      | or => exact apply_or options left right
      | _ => rfl
    | _ => rfl
  | ternaryStatement =>
    cases e with
    | binary op left right => cases op <;> rfl
    | conditional test left right => exact apply_ternary options test left right
    | _ => rfl
  | _ => rcases silhouette_exprStmt_cases e with h | h | h | h <;> rw [h] <;> rfl

/-- A rule for statements makes `recast` of the statements whose silhouette it accepts, and has
nothing to do with the others. -/
theorem applyToStmt?_rule_of_head (b : Builtin) {s : Stmt}
    (hs : ∀ d, s.headDeclaration? = some d → d.holes = []) :
    b.rule.applyToStmt? options s =
      if b.accepts s.silhouette = true then some (.ok (b.recast s)) else none := by
  cases s with
  | exprStmt e => exact applyToStmt?_exprStmt options b e
  | ifStmt test consequent alternate =>
    cases consequent with
    | body s =>
      cases alternate with
      | none =>
        cases b with
        | ifAlone => exact apply_ifAlone options test s
        | _ => rfl
      | some alternate =>
        cases alternate with
        | body s' => exact applyToStmt?_ifElse options b test s s'
  | whileStmt test inner =>
    cases inner with
    | body s =>
      cases b with
      | whileLoop => exact apply_while options test s
      | _ => rfl
  | doWhile test inner =>
    cases inner with
    | body s =>
      cases b with
      | doWhileLoop => exact apply_doWhile options test s
      | _ => rfl
  | forStmt init test step inner =>
    cases inner with
    | body s =>
      cases b with
      | forLoop i t u => exact applyToStmt?_forLoop options i t u init test step s hs
      | _ => rfl
  | forIn left right inner =>
    cases inner with
    | body s =>
      cases b with
      | forIn => exact apply_forIn options left right s hs
      | _ => rfl
  | forOf isAwait left right inner =>
    cases inner with
    | body s =>
      cases isAwait with
      | true => cases b <;> rfl
      | false =>
        cases b with
        | forOf => exact apply_forOf options left right s hs
        | _ => rfl
  | _ => cases b <;> rfl

theorem applyToStmt?_rule (b : Builtin) {s : Stmt} (hs : s.holes = []) :
    b.rule.applyToStmt? options s =
      if b.accepts s.silhouette = true then some (.ok (b.recast s)) else none :=
  applyToStmt?_rule_of_head options b fun _ => Tree.holes_headDeclaration? hs

end

end Builtin

/-! ## Constants -/

namespace Pattern

variable {options : MatchOptions}

/-- A pattern without holes matches only what is the same. -/
theorem Matches.same {c : Category} {p n : Tree c} {env env' : Environment} (hp : p.holes = [])
    (h : Matches options p n env env') : p.same n = true := by
  induction p using Tree.induction_on_parts generalizing env env' with
  | step c p ih =>
    cases hd : demand options p n with
    | bind k v =>
      rw [(binds_of_demand hd).holes] at hp
      cases hp
    | refuse => exact absurd h (not_matches_of_refuse hd)
    | compare =>
      obtain ⟨hform, hchain⟩ := (matches_of_compare hd).mp h
      refine Tree.same_iff.mpr ⟨hform, ?_⟩
      replace hp : ∀ q ∈ p.parts, q.2.holes = [] := fun q hq => Tree.holes_part hp hq
      generalize p.parts = ps at ih hp hchain
      generalize n.parts = ns at hchain
      clear h hd hform
      induction hchain with
      | nil => exact .nil
      | cons hmid _ ihRest =>
        refine .cons (ih _ List.mem_cons_self (hp _ List.mem_cons_self) hmid) ?_
        exact ihRest (fun q hq => ih q (List.mem_cons_of_mem _ hq))
          fun q hq => hp q (List.mem_cons_of_mem _ hq)

theorem isSome_matchTree_of_holes {c : Category} {p n : Tree c} (hp : p.holes = []) :
    (matchTree options p n).isSome = p.same n := by
  rw [Bool.eq_iff_iff, Option.isSome_iff_exists]
  constructor
  · rintro ⟨env, h⟩
    exact (matchTree_eq_some.mp h).same hp
  · intro h
    have hfits : fits options {} p n = true := (fits_iff_same hp).mpr h
    have hempty : Environment.Reflects {} {} := fun _ _ h => by cases h
    obtain ⟨env, hmatch, -⟩ := matches_of_fits hfits hempty
    exact ⟨env, matchTree_eq_some.mpr hmatch⟩

end Pattern

namespace Builtin

/-- What a rule for expressions makes of an expression. -/
def spelling? (b : Builtin) (e : Expr) : Option Expr :=
  match b.constant? with
  | some (found, written) => if found.same e then some written else none
  | none => none

theorem holes_constant? {b : Builtin} {found written : Expr}
    (h : b.constant? = some (found, written)) : found.holes = [] ∧ written.holes = [] := by
  cases b <;> cases h <;> exact ⟨rfl, rfl⟩

/-- A rule for expressions spells the constant it recognizes in another way. -/
theorem applyToExpr?_rule (options : MatchOptions) (b : Builtin) (e : Expr) :
    b.rule.applyToExpr? options e = (b.spelling? e).map .ok := by
  cases hb : b.constant? with
  | none =>
    rw [spelling?, hb]
    cases b <;> first | rfl | cases hb
  | some sides =>
    obtain ⟨found, written⟩ := sides
    obtain ⟨hfound, hwritten⟩ := holes_constant? hb
    have hrule : b.rule.applyToExpr? options e =
        (Pattern.matchTree options found e).bind fun env => some (Pattern.fillTree env written) := by
      cases b <;> cases hb <;> rfl
    have hmatch : (Pattern.matchTree options found e).isSome = found.same e :=
      Pattern.isSome_matchTree_of_holes hfound
    rw [hrule, spelling?, hb]
    cases hm : Pattern.matchTree options found e with
    | none =>
      rw [hm] at hmatch
      simp only [← hmatch]
      rfl
    | some env =>
      rw [hm] at hmatch
      simp only [← hmatch]
      exact congrArg some (Pattern.visit_of_holes hwritten)

/-! ## Interop helpers -/

/-- The rule for interop helpers leaves everything but functions alone. -/
theorem applyToStmt?_interopRule (options : MatchOptions) (s : Stmt) :
    interopRule.applyToStmt? options s = none ∨
      (∃ fn, s = .functionStmt fn) ∧ interopRule.applyToStmt? options s =
        some (.ok (interopHelper (.ident "_interopRequireDefault" none) (.ident "obj" none))) := by
  have hrule : interopRule.applyToStmt? options s =
      (Pattern.matchTree options (interopHelper (.nameHole 1) (.nameHole 2)) s).bind fun env => some
        (Pattern.fillTree env (interopHelper (.ident "_interopRequireDefault" none) (.ident "obj" none))) :=
    rfl
  cases s with
  | functionStmt fn =>
    rw [hrule]
    cases Pattern.matchTree options (interopHelper (.nameHole 1) (.nameHole 2)) (.functionStmt fn) with
    | none => exact .inl rfl
    | some env => exact .inr ⟨⟨fn, rfl⟩, congrArg some (Pattern.visit_of_holes rfl)⟩
  | _ => exact .inl rfl

end Builtin

end Unminify
