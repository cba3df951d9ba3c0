import Unminify.Syntax.Tree

/-!
# Executions

A meaning for statements that knows nothing of values. What an expression does to the state, whether
its value is true and whether it throws is left to an *interpretation*, and so is everything about
declarations, iterators and the statements without structure of their own. What is fixed is control:
the order of evaluation, what is not evaluated at all, and how a statement that completes abruptly is
carried outwards.

An execution takes a state to a state with a completion. A statement is a relation between the three,
its `Behaviour`; a run without end is no execution. Blocks are plain sequencing, since scopes are part
of the state.
-/

namespace Unminify

/-- What the evaluation of an expression comes to. -/
inductive Evaluated (σ : Type)
  /-- A value; of the value itself only its truth is seen. -/
  | value (state : σ) (truthy : Bool)
  | thrown (state : σ)

/-- How a statement completes. -/
inductive Completion
  | normal
  | breaks (label : Option String)
  | continues (label : Option String)
  | returns
  | throws
deriving DecidableEq, Repr

/-- The executions of a statement: the state before, the state after and the completion. -/
abbrev Behaviour (σ : Type) := σ → σ → Completion → Prop

/-- What a loop over a collection runs through. -/
inductive Collection
  | keys
  | values (isAwait : Bool)
deriving DecidableEq, Repr

/-- The meaning of what has no control structure of its own. -/
structure Interpretation (σ : Type) where
  /-- An expression that is no comma, `&&`, `||`, `?:` or `!`. -/
  atom : Expr → σ → Evaluated σ
  /-- The declaration in the head of a `for` loop. -/
  declare : VarDecl → σ → Evaluated σ
  /-- Makes an iterator for the value that the state has just come to. -/
  iterate : Collection → σ → Evaluated σ
  /-- Puts the next item into the head of a loop; falsy when there is none. -/
  advance : Collection → Tree .forHead → σ → Evaluated σ
  /-- Gives up an iterator before its end. -/
  close : Collection → σ → Completion → σ × Completion
  /-- Any other statement, under the labels in front of it. -/
  other : Stmt → List String → Behaviour σ

variable {σ : Type}

namespace Evaluated

/-- Goes on with a value; what is thrown ends the evaluation. -/
def bind : Evaluated σ → (σ → Bool → Evaluated σ) → Evaluated σ
  | value s truthy, f => f s truthy
  | thrown s, _ => thrown s

/-- The value of the opposite truth. -/
def negated : Evaluated σ → Evaluated σ
  | value s truthy => value s !truthy
  | thrown s => thrown s

end Evaluated

namespace Completion

/-- Whether a loop goes on after a round of its body. -/
def goesOn (labels : List String) : Completion → Bool
  | normal | continues none => true
  | continues (some label) => labels.contains label
  | _ => false

/-- How a loop completes that its body has left. -/
def leaving : Completion → Completion
  | breaks none => normal
  | c => c

end Completion

namespace Behaviour

/-- Does nothing. -/
def skip : Behaviour σ := fun s s' c => s' = s ∧ c = .normal

/-- One after the other, the second only if the first completes normally. -/
def andThen (x y : Behaviour σ) : Behaviour σ := fun s s' c =>
  (∃ mid, x s mid .normal ∧ y mid s' c) ∨ c ≠ .normal ∧ x s s' c

/-- Evaluates an expression and goes on by the truth of its value. -/
def evaluating (e : σ → Evaluated σ) (next : Bool → Behaviour σ) : Behaviour σ := fun s s' c =>
  match e s with
  | .value mid truthy => next truthy mid s' c
  | .thrown mid => s' = mid ∧ c = .throws

/-- A round of a loop: if the loop goes on after its body, `next` follows, else the loop is left. -/
def round (body : Behaviour σ) (labels : List String) (leave : σ → Completion → σ × Completion)
    (next : Behaviour σ) : Behaviour σ := fun s s' c =>
  ∃ mid c', body s mid c' ∧
    if c'.goesOn labels then next mid s' c else leave mid c' = (s', c)

/-- The rounds of a loop: as long as `test` is true, `body` and then `step`. -/
inductive Rounds (test step : σ → Evaluated σ) (body : Behaviour σ) (labels : List String)
    (leave : σ → Completion → σ × Completion) : Behaviour σ
  | done {s s'} : test s = .value s' false → Rounds test step body labels leave s s' .normal
  | testThrows {s s'} : test s = .thrown s' → Rounds test step body labels leave s s' .throws
  | left {s mid mid' s' c c'} : test s = .value mid true → body mid mid' c' →
      c'.goesOn labels = false → leave mid' c' = (s', c) → Rounds test step body labels leave s s' c
  | stepThrows {s mid mid' s' c'} : test s = .value mid true → body mid mid' c' →
      c'.goesOn labels = true → step mid' = .thrown s' → Rounds test step body labels leave s s' .throws
  | again {s mid mid' next s' c c' truthy} : test s = .value mid true → body mid mid' c' →
      c'.goesOn labels = true → step mid' = .value next truthy →
      Rounds test step body labels leave next s' c → Rounds test step body labels leave s s' c

end Behaviour

namespace Interpretation

open Behaviour

variable (I : Interpretation σ)

/-- The evaluation of an expression; of a list, that of its items from left to right. -/
def eval : {c : Category} → Tree c → σ → Evaluated σ
  | _, .comma parts, s => eval parts s
  | _, .nil, s => .value s false
  | _, .cons e .nil, s => eval e s
  | _, .cons e rest, s => (eval e s).bind fun s _ => eval rest s
  | _, .unary .not arg, s => (eval arg s).negated
  | _, .binary .and left right, s =>
    (eval left s).bind fun s truthy => if truthy then eval right s else .value s false
  | _, .binary .or left right, s =>
    (eval left s).bind fun s truthy => if truthy then .value s true else eval right s
  | _, .conditional test left right, s =>
    (eval test s).bind fun s truthy => if truthy then eval left s else eval right s
  | .expr, e, s => I.atom e s
  | _, _, s => .value s false

/-- The evaluation of a part that may be absent; an absent test is true. -/
def evalPart : Tree (.option .expr) → σ → Evaluated σ
  | .some e, s => I.eval e s
  | .none, s => .value s true

/-- The evaluation of the first part of a `for` head. -/
def start : Tree (.option .forHead) → σ → Evaluated σ
  | .some (.exprHead e), s => I.eval e s
  | .some (.declHead d), s => I.declare d s
  | .none, s => .value s true

/-- A loop that evaluates `test` before and `step` after each round. -/
def loop (test step : σ → Evaluated σ) (body : Behaviour σ) (labels : List String) : Behaviour σ :=
  Rounds test step body labels fun s c => (s, c.leaving)

/-- A loop over the items of a collection. -/
def traversal (items : Collection) (left : Tree .forHead) (right : Expr) (body : Behaviour σ)
    (labels : List String) : Behaviour σ :=
  evaluating (I.eval right) fun _ => evaluating (I.iterate items) fun _ =>
    Rounds (I.advance items left) (I.evalPart .none) body labels fun s c => I.close items s c.leaving

/-- The executions of a statement under the labels in front of it. Of a list, they are those of its
members in order, and of an absent part, those of nothing. -/
def exec : {c : Category} → Tree c → List String → Behaviour σ
  | _, .exprStmt e, _ => evaluating (I.eval e) fun _ => skip
  | _, .emptyStmt, _ => skip
  | _, .comment _, _ => skip
  | _, .blockStmt inner, _ => exec inner []
  | _, .sequence inner, _ => exec inner []
  | _, .ifStmt test consequent alternate, _ =>
    evaluating (I.eval test) fun truthy => if truthy then exec consequent [] else exec alternate []
  | _, .whileStmt test inner, labels => loop (I.eval test) (I.evalPart .none) (exec inner []) labels
  | _, .doWhile test inner, labels =>
    round (exec inner []) labels (fun s c => (s, c.leaving))
      (loop (I.eval test) (I.evalPart .none) (exec inner []) labels)
  | _, .forStmt init test step inner, labels =>
    evaluating (I.start init) fun _ =>
      loop (I.evalPart test) (I.evalPart step) (exec inner []) labels
  | _, .forIn left right inner, labels => I.traversal .keys left right (exec inner []) labels
  | _, .forOf isAwait left right inner, labels =>
    I.traversal (.values isAwait) left right (exec inner []) labels
  | _, .stmts items, _ => exec items []
  | _, .body s, _ => exec s []
  | _, .nil, _ => skip
  | _, .cons s rest, _ => (exec s []).andThen (exec rest [])
  | _, .none, _ => skip
  | _, .some part, _ => exec part []
  | .stmt, s, labels => I.other s labels
  | _, _, _ => skip

end Interpretation

end Unminify
