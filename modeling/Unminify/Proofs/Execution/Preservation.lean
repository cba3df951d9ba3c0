import Unminify.Pass.Run
import Unminify.Proofs.Execution.Behaviour
import Unminify.Proofs.Rule.Silhouette

/-!
# The built-in rules keep executions

What a built-in rule makes of a statement runs as the statement did, under every interpretation
(`sameExecutions_builtin`). Two things happen to a statement: `&&`, `||` and `?:` become an `if`, which
evaluates and skips the same expressions, and a body is put in braces, which a block, being plain
sequencing, does not notice. Behaviours are equal as relations, so a loop around a body needs no
argument of its own.

The one exception is a loop whose head declares something and has holes in the declaration, as no
program does that was read from a text: the holes are filled when the loop gets its braces
(`not_sameExecutions_filledHead`).
-/

namespace Unminify

/-- Two statements have the same executions, whatever the interpretation. -/
def Tree.SameExecutions (s s' : Stmt) : Prop :=
  ∀ (σ : Type) (I : Interpretation σ) (labels : List String) (first last : σ) (c : Completion),
    I.exec s labels first last c ↔ I.exec s' labels first last c

variable {σ : Type}

namespace Behaviour

theorem andThen_skip (x : Behaviour σ) : x.andThen skip = x := by
  funext s s' c
  refine propext ⟨?_, fun h => ?_⟩
  · rintro (⟨mid, h, rfl, rfl⟩ | ⟨-, h⟩) <;> exact h
  · by_cases hc : c = .normal
    · exact .inl ⟨s', hc ▸ h, rfl, hc⟩
    · exact .inr ⟨hc, h⟩

theorem skip_andThen (x : Behaviour σ) : skip.andThen x = x := by
  funext s s' c
  refine propext ⟨?_, fun h => .inl ⟨s, ⟨rfl, rfl⟩, h⟩⟩
  rintro (⟨_, ⟨rfl, -⟩, h⟩ | ⟨hc, -, hc'⟩)
  · exact h
  · exact absurd hc' hc

/-- What follows a value goes with what is done with the value. -/
theorem evaluating_bind (e : σ → Evaluated σ) (f : σ → Bool → Evaluated σ)
    (next : Bool → Behaviour σ) :
    evaluating (fun s => (e s).bind f) next =
      evaluating e fun truthy => evaluating (f · truthy) next := by
  funext s s' c
  simp only [evaluating]
  cases e s <;> rfl

theorem evaluating_negated (e : σ → Evaluated σ) (next : Bool → Behaviour σ) :
    evaluating (fun s => (e s).negated) next = evaluating e fun truthy => next !truthy := by
  funext s s' c
  simp only [evaluating]
  cases e s <;> rfl

theorem evaluating_andThen (e : σ → Evaluated σ) (next : Bool → Behaviour σ) (x : Behaviour σ) :
    (evaluating e next).andThen x = evaluating e fun truthy => (next truthy).andThen x := by
  funext s s' c
  simp only [evaluating, andThen]
  cases e s with
  | value mid truthy => rfl
  | thrown mid =>
    refine propext ⟨?_, fun ⟨hs, hc⟩ => .inr ⟨by rw [hc]; exact Completion.noConfusion, hs, hc⟩⟩
    rintro (⟨_, ⟨_, h⟩, _⟩ | ⟨-, h⟩)
    · cases h
    · exact h

end Behaviour

namespace Interpretation

open Behaviour

variable (I : Interpretation σ)

/-! ## Bodies in braces -/

theorem exec_braces (s : Stmt) : I.exec (Builtin.braces s) [] = I.exec s [] := by
  show (I.exec s []).andThen skip = I.exec s []
  exact andThen_skip _

/-- Braces make no difference to a body. -/
theorem exec_braced (b : Tree .body) : I.exec b.braced [] = I.exec b [] := by
  cases b with
  | body s =>
    cases s with
    | blockStmt inner => rfl
    | sequence inner => rfl
    | emptyStmt => rfl
    | _ => exact I.exec_braces _

/-! ## Expression statements -/

/-- A conjunction evaluates its right side where the left one is true. -/
theorem evaluating_and (left right : Expr) (next : Bool → Behaviour σ) :
    evaluating (I.eval (.binary .and left right)) next =
      evaluating (I.eval left) fun truthy =>
        if truthy then evaluating (I.eval right) next else next false := by
  refine (evaluating_bind (I.eval left) _ next).trans (congrArg _ (funext fun truthy => ?_))
  cases truthy <;> rfl

theorem evaluating_or (left right : Expr) (next : Bool → Behaviour σ) :
    evaluating (I.eval (.binary .or left right)) next =
      evaluating (I.eval left) fun truthy =>
        if truthy then next true else evaluating (I.eval right) next := by
  refine (evaluating_bind (I.eval left) _ next).trans (congrArg _ (funext fun truthy => ?_))
  cases truthy <;> rfl

theorem evaluating_conditional (test left right : Expr) (next : Bool → Behaviour σ) :
    evaluating (I.eval (.conditional test left right)) next =
      evaluating (I.eval test) fun truthy =>
        if truthy then evaluating (I.eval left) next else evaluating (I.eval right) next := by
  refine (evaluating_bind (I.eval test) _ next).trans (congrArg _ (funext fun truthy => ?_))
  cases truthy <;> rfl

theorem evaluating_not (arg : Expr) (next : Bool → Behaviour σ) :
    evaluating (I.eval (.unary .not arg)) next =
      evaluating (I.eval arg) fun truthy => next !truthy :=
  evaluating_negated (I.eval arg) next

variable (labels : List String)

theorem exec_ifStmt (test : Expr) (consequent : Tree .body) (alternate : Tree (.option .body)) :
    I.exec (.ifStmt test consequent alternate) labels =
      evaluating (I.eval test) fun truthy =>
        if truthy then I.exec consequent [] else I.exec alternate [] := rfl

theorem exec_exprStmt (e : Expr) :
    I.exec (.exprStmt e) labels = evaluating (I.eval e) fun _ => skip := rfl

theorem exec_and (left right : Expr) :
    I.exec (.ifStmt left (Builtin.braces (.exprStmt right)) .none) labels =
      I.exec (.exprStmt (.binary .and left right)) labels := by
  rw [exec_ifStmt, exec_braces, exec_exprStmt, exec_exprStmt, evaluating_and]
  rfl

theorem exec_or (left right : Expr) :
    I.exec (.ifStmt (.unary .not left) (Builtin.braces (.exprStmt right)) .none) labels =
      I.exec (.exprStmt (.binary .or left right)) labels := by
  rw [exec_ifStmt, exec_braces, exec_exprStmt, exec_exprStmt, evaluating_not, evaluating_or]
  refine congrArg _ (funext fun truthy => ?_)
  cases truthy <;> rfl

theorem exec_conditional (test left right : Expr) :
    I.exec (.ifStmt test (Builtin.braces (.exprStmt left)) (.some (Builtin.braces (.exprStmt right))))
        labels = I.exec (.exprStmt (.conditional test left right)) labels := by
  have halternate : I.exec (.some (Builtin.braces (.exprStmt right))) [] = I.exec (.exprStmt right) [] :=
    I.exec_braces (.exprStmt right)
  rw [exec_ifStmt, exec_braces, halternate]
  simp only [exec_exprStmt]
  rw [evaluating_conditional]

/-- What a rule makes of a statement runs as the statement did. -/
theorem exec_recast (b : Builtin) (s : Stmt) : I.exec (b.recast s) labels = I.exec s labels := by
  cases s with
  | exprStmt e =>
    cases e with
    | binary op left right =>
      cases op with
      | and => exact I.exec_and labels left right
      | or => exact I.exec_or labels left right
      | _ => rfl
    | conditional test left right => exact I.exec_conditional labels test left right
    | _ => rfl
  | ifStmt test consequent alternate =>
    cases alternate with
    | none =>
      have hrecast : b.recast (.ifStmt test consequent .none) = .ifStmt test consequent.braced .none := by
        cases b <;> rfl
      rw [hrecast, exec_ifStmt, exec_braced]
      rfl
    | some alternate =>
      have hsome : ∀ b : Tree .body, I.exec (.some b.braced) [] = I.exec (.some b) [] :=
        fun b => I.exec_braced b
      cases b with
      | ifElse =>
        show I.exec (.ifStmt test consequent.braced (.some alternate.braced)) labels = _
        rw [exec_ifStmt, exec_braced, hsome]
        rfl
      | _ =>
        show I.exec (.ifStmt test consequent.braced (.some alternate)) labels = _
        rw [exec_ifStmt, exec_braced]
        rfl
  | whileStmt test inner =>
    show loop _ _ (I.exec inner.braced []) labels = _
    rw [exec_braced]
    rfl
  | doWhile test inner =>
    show round (I.exec inner.braced []) labels _ (loop _ _ (I.exec inner.braced []) labels) = _
    rw [exec_braced]
    rfl
  | forStmt init test step inner =>
    show (evaluating (I.start init) fun _ => loop _ _ (I.exec inner.braced []) labels) = _
    rw [exec_braced]
    rfl
  | forIn left right inner =>
    show I.traversal .keys left right (I.exec inner.braced []) labels = _
    rw [exec_braced]
    rfl
  | forOf isAwait left right inner =>
    show I.traversal (.values isAwait) left right (I.exec inner.braced []) labels = _
    rw [exec_braced]
    rfl
  | _ => rfl

/-! ## Commas -/

theorem evaluating_cons (e : Expr) (rest : Tree (.list .expr)) :
    (evaluating (I.eval (.cons e rest)) fun _ => skip) =
      (I.exec (.exprStmt e) []).andThen (evaluating (I.eval rest) fun _ => skip) := by
  rw [exec_exprStmt, evaluating_andThen]
  simp only [skip_andThen]
  cases rest with
  | nil => rfl
  | cons e' rest => exact evaluating_bind (I.eval e) (fun s _ => I.eval (.cons e' rest) s) _

/-- Expressions one after the other, as values or as statements. -/
theorem exec_map_exprStmt (es : List Expr) :
    I.exec (Tree.ofList (es.map Tree.exprStmt)) [] =
      evaluating (I.eval (Tree.ofList es)) fun _ => skip := by
  induction es with
  | nil => rfl
  | cons e es ih =>
    show (I.exec (.exprStmt e) []).andThen (I.exec (Tree.ofList (es.map Tree.exprStmt)) []) = _
    rw [ih]
    exact (I.evaluating_cons e _).symm

/-- A comma expression as a statement is its operands as statements. -/
theorem exec_comma (parts : Tree (.list .expr)) :
    I.exec (.sequence (Tree.blockOf (parts.toList.map Tree.exprStmt))) labels =
      I.exec (.exprStmt (.comma parts)) labels := by
  show I.exec (Tree.ofList (parts.toList.map Tree.exprStmt)) [] = evaluating (I.eval parts) fun _ => skip
  rw [exec_map_exprStmt, Tree.ofList_toList]

end Interpretation

theorem Tree.sameExecutions_of_eq {s s' : Stmt}
    (h : ∀ (σ : Type) (I : Interpretation σ) (labels : List String), I.exec s' labels = I.exec s labels) :
    s.SameExecutions s' := by
  intro σ I labels first last c
  rw [h σ I labels]

namespace RuleTable

/-- The built-in rules keep the executions of statements, and so does the splitting of commas. -/
theorem sameExecutions_builtin {table : RuleTable} (htable : RuleTable.builtin = .ok table) :
    (∀ r ∈ table.rules, r.name ≠ "interop-require-default" →
      ∀ (options : MatchOptions) (s s' : Stmt),
        (∀ d, s.headDeclaration? = some d → d.holes = []) →
        r.applyToStmt? options s = some (.ok s') → s.SameExecutions s') ∧
    ∀ (table : RuleTable) (parts : Tree (.list .expr)) (state : Pass.State),
      (Tree.exprStmt (.comma parts)).SameExecutions
        ((Pass.simplifyStmt table (.exprStmt (.comma parts))).run state).1 := by
  constructor
  · intro r hr hname options s s' hhead happly
    rw [builtin_eq] at htable
    cases htable
    rcases List.mem_append.mp hr with hr | hr
    · obtain ⟨b, -, rfl⟩ := List.mem_map.mp hr
      rw [Builtin.applyToStmt?_rule_of_head options b hhead] at happly
      split at happly
      · cases happly
        exact Tree.sameExecutions_of_eq fun σ I labels => I.exec_recast labels b s
      · cases happly
    · rw [List.mem_singleton.mp hr] at hname
      exact absurd rfl hname
  · intro table parts state
    exact Tree.sameExecutions_of_eq fun σ I labels => I.exec_comma labels parts

/-- The statements `a && b;` and `if (a) { b; }`. -/
theorem sameExecutions_builtin_and :
    ∃ table, RuleTable.builtin = .ok table ∧
      (Tree.exprStmt (.binary .and (.identExpr (.ident "a" none))
        (.identExpr (.ident "b" none)))).SameExecutions
      (.ifStmt (.identExpr (.ident "a" none))
        (Builtin.braces (.exprStmt (.identExpr (.ident "b" none)))) .none) :=
  ⟨_, builtin_eq, (sameExecutions_builtin builtin_eq).1 Builtin.andStatement.rule (by simp [Builtin.all])
    (by decide) {} _ _ nofun (Builtin.apply_and _ _ _)⟩

/-! ## A head with a hole -/

namespace FilledHead

/-- The declaration `var x = e`. -/
def declaration (e : Expr) : VarDecl :=
  .varDecl .var (.cons (.declarator (.nameBinder (.ident "x" none)) (.some e)) .nil)

/-- The loop `for (var x = e; a; b) s`. -/
def loop (e : Expr) (s : Tree .body) : Stmt :=
  .forStmt (.some (.declHead (declaration e))) (.some (.identExpr (.ident "a" none)))
    (.some (.identExpr (.ident "b" none))) s

/-- The statement `s;`. -/
def body : Stmt := .exprStmt (.identExpr (.ident "s" none))

/-- Declarations throw, and the state tells whether it was the one with the hole. -/
def interpretation : Interpretation Bool where
  atom _ s := .value s true
  declare d _ := .thrown (d = declaration (Builtin.expression 2))
  iterate _ s := .value s true
  advance _ _ s := .value s true
  close _ s c := (s, c)
  other _ _ := Behaviour.skip

end FilledHead

/-- A loop that declares something with a hole may run differently with braces. -/
theorem not_sameExecutions_filledHead :
    ¬ ∀ table, RuleTable.builtin = .ok table → ∀ r ∈ table.rules, r.name ≠ "interop-require-default" →
      ∀ (options : MatchOptions) (s s' : Stmt),
        r.applyToStmt? options s = some (.ok s') → s.SameExecutions s' := by
  intro h
  have happly : (Builtin.forLoop true true true).rule.applyToStmt? {}
      (FilledHead.loop (Builtin.expression 2) (.body FilledHead.body)) =
      some (.ok (FilledHead.loop (.identExpr (.ident "a" none)) (Builtin.braces FilledHead.body))) := rfl
  have hsame := h _ builtin_eq _ (by simp [Builtin.all]) (by decide) {} _ _ happly Bool
    FilledHead.interpretation [] false true .throws
  have hbefore : FilledHead.interpretation.exec
      (FilledHead.loop (Builtin.expression 2) (.body FilledHead.body)) [] false true .throws :=
    ⟨rfl, rfl⟩
  exact absurd (hsame.mp hbefore).1 (by decide)

end RuleTable

end Unminify
