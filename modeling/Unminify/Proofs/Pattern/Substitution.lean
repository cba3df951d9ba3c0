import Mathlib.Data.List.Basic
import Unminify.Proofs.Pattern.Filling

/-!
# Substitution

Filling a template substitutes the bound values for its holes, and it succeeds exactly when every
occurrence of a hole has a value that can stand there.

`subst` is substitution by recursion on the template, with no walk and no errors: a hole without a
value of its kind stays. `slots` are the occurrences of holes in the order of walks; a loop head that
is one expression hole counts as a whole, since a declaration can stand for it. `visit_eq_subst` says
how the two make up filling: it is substitution, unless some slot has nothing to stand there, and then
the error is that of the first such slot.

Values have no holes themselves, so nothing that has been put in is filled again.
-/

namespace Unminify

/-! ## Substitution -/

/-- The phrase of a category that a hole is bound to. -/
def Environment.phrase? (env : Environment) (c : Category) (k : Hole) : Option (Tree c) :=
  (env.get? k).bind (·.at? c)

namespace Tree

/-- The block whose statements a statement stands for. -/
def opened : Stmt → Block
  | .blockStmt inner => inner
  | .sequence inner => inner
  | .emptyStmt => .stmts .nil
  | s => blockOf [s]

/-- What a block of one statement hole and nothing else becomes, if the hole has a value. -/
def loneBlock? (env : Environment) (inner : Block) : Option Block :=
  match inner.statements with
  | [.stmtHole index _] => (env.phrase? .stmt ⟨.statement, index⟩).map opened
  | _ => Option.none

/-- The declaration that stands for a loop head, if the head is an expression hole. -/
def headDecl? (env : Environment) (head : Expr) : Option VarDecl :=
  match head with
  | .exprHole index _ => env.phrase? .varDecl ⟨.expression, index⟩
  | _ => Option.none

/-- A template with the values of its holes in their place. -/
def subst (env : Environment) : {c : Category} → Tree c → Tree c
  | _, t@(.nameHole index) => (env.phrase? .name ⟨.generic, index⟩).getD t
  | _, t@(.stmtHole index _) => (env.phrase? .stmt ⟨.statement, index⟩).getD t
  | _, t@(.exprHole index _) => (env.phrase? .expr ⟨.expression, index⟩).getD t
  | _, .identExpr name => .identExpr (name.subst env)
  | _, .template chunks substitutions => .template chunks (substitutions.subst env)
  | _, .tagged chunks tag substitutions => .tagged chunks (tag.subst env) (substitutions.subst env)
  | _, .array elements => .array (elements.subst env)
  | _, .object properties => .object (properties.subst env)
  | _, .functionExpr fn => .functionExpr (fn.subst env)
  | _, .arrow isAsync params inner => .arrow isAsync (params.subst env) (inner.subst env)
  | _, .classExpr definition => .classExpr (definition.subst env)
  | _, .unary op arg => .unary op (arg.subst env)
  | _, .update op before arg => .update op before (arg.subst env)
  | _, .binary op left right => .binary op (left.subst env) (right.subst env)
  | _, .assign op target value => .assign op (target.subst env) (value.subst env)
  | _, .conditional test consequent alternate =>
    .conditional (test.subst env) (consequent.subst env) (alternate.subst env)
  | _, .call optional callee args => .call optional (callee.subst env) (args.subst env)
  | _, .new callee args => .new (callee.subst env) (args.subst env)
  | _, .access computed optional target prop =>
    .access computed optional (target.subst env) (prop.subst env)
  | _, .comma parts => .comma (parts.subst env)
  | _, .spread arg => .spread (arg.subst env)
  | _, .await arg => .await (arg.subst env)
  | _, .yield delegate arg => .yield delegate (arg.subst env)
  | _, .nameBinder name => .nameBinder (name.subst env)
  | _, .arrayBinder elements => .arrayBinder (elements.subst env)
  | _, .objectBinder properties => .objectBinder (properties.subst env)
  | _, .defaultBinder target value => .defaultBinder (target.subst env) (value.subst env)
  | _, .restBinder target => .restBinder (target.subst env)
  | _, .keyedBinder key value => .keyedBinder (key.subst env) (value.subst env)
  | _, .shortBinder name value => .shortBinder (name.subst env) (value.subst env)
  | _, .restProp target => .restProp (target.subst env)
  | _, .computedKey expr => .computedKey (expr.subst env)
  | _, .keyed key value => .keyed (key.subst env) (value.subst env)
  | _, .shorthand name => .shorthand (name.subst env)
  | _, .methodProp kind key fn => .methodProp kind (key.subst env) (fn.subst env)
  | _, .spreadProp arg => .spreadProp (arg.subst env)
  | _, .function isAsync isGenerator name params inner =>
    .function isAsync isGenerator (name.subst env) (params.subst env) (inner.subst env)
  | _, .exprBody value => .exprBody (value.subst env)
  | _, .blockBody inner => .blockBody (inner.subst env)
  | _, .classDef name heritage members =>
    .classDef (name.subst env) (heritage.subst env) (members.subst env)
  | _, .method kind isStatic key fn => .method kind isStatic (key.subst env) (fn.subst env)
  | _, .field isStatic key value => .field isStatic (key.subst env) (value.subst env)
  | _, .staticBlock inner => .staticBlock (inner.subst env)
  | _, .varDecl kind declarators => .varDecl kind (declarators.subst env)
  | _, .declarator target init => .declarator (target.subst env) (init.subst env)
  | _, .declHead decl => .declHead (decl.subst env)
  | _, .exprHead expr =>
    match expr.headDecl? env with
    | Option.some decl => .declHead decl
    | Option.none => .exprHead (expr.subst env)
  | _, .switchCase test inner => .switchCase (test.subst env) (inner.subst env)
  | _, .handler param inner => .handler (param.subst env) (inner.subst env)
  | _, .exprStmt expr => .exprStmt (expr.subst env)
  | _, .varStmt decl => .varStmt (decl.subst env)
  | _, .functionStmt fn => .functionStmt (fn.subst env)
  | _, .classStmt definition => .classStmt (definition.subst env)
  | _, .blockStmt inner =>
    match inner.loneBlock? env with
    | Option.some opened => .blockStmt opened
    | Option.none => .blockStmt (inner.subst env)
  | _, .ifStmt test consequent alternate =>
    .ifStmt (test.subst env) (consequent.subst env) (alternate.subst env)
  | _, .forStmt init test step inner =>
    .forStmt (init.subst env) (test.subst env) (step.subst env) (inner.subst env)
  | _, .forIn left right inner => .forIn (left.subst env) (right.subst env) (inner.subst env)
  | _, .forOf isAwait left right inner =>
    .forOf isAwait (left.subst env) (right.subst env) (inner.subst env)
  | _, .whileStmt test inner => .whileStmt (test.subst env) (inner.subst env)
  | _, .doWhile test inner => .doWhile (test.subst env) (inner.subst env)
  | _, .returnStmt value => .returnStmt (value.subst env)
  | _, .throwStmt value => .throwStmt (value.subst env)
  | _, .labeled label inner => .labeled label (inner.subst env)
  | _, .switchStmt discriminant cases => .switchStmt (discriminant.subst env) (cases.subst env)
  | _, .tryStmt inner caught finalizer =>
    .tryStmt (inner.subst env) (caught.subst env) (finalizer.subst env)
  | _, .sequence inner => .sequence (inner.subst env)
  | _, .stmts items => .stmts (items.subst env)
  | _, .body stmt => .body (stmt.subst env)
  | _, .cons head tail => .cons (head.subst env) (tail.subst env)
  | _, .some value => .some (value.subst env)
  | _, other => other

/-- A phrase with the values of its holes in their place. -/
def substPhrase (env : Environment) (p : Phrase) : Phrase := ⟨p.1, p.2.subst env⟩

/-! ## Slots -/

end Tree

/-- An occurrence of a hole. -/
structure Slot where
  hole : Hole
  /-- Whether the hole is the whole of a loop head. -/
  head : Bool
deriving DecidableEq, Repr

namespace Slot

/-- Whether a value can stand at an occurrence. -/
def admits (s : Slot) : Bound → Bool
  | .name _ => s.hole.family = .generic
  | .stmt _ => s.hole.family = .statement
  | .expr _ => s.hole.family = .expression
  | .decl _ => s.head

/-- What is wrong with an occurrence. -/
def error? (env : Environment) (s : Slot) : Option FillError :=
  match env.get? s.hole with
  | some value => if s.admits value then none else some (.mismatch s.hole)
  | none => some (.unbound s.hole)

theorem error?_eq_none {env : Environment} {s : Slot} :
    s.error? env = none ↔ ∃ v, env.get? s.hole = some v ∧ s.admits v = true := by
  unfold error?
  cases env.get? s.hole with
  | none => exact ⟨nofun, fun ⟨_, hv, _⟩ => nomatch hv⟩
  | some v =>
    show (if s.admits v = true then none else some (FillError.mismatch s.hole)) = none ↔ _
    split
    · rename_i hv
      exact ⟨fun _ => ⟨v, rfl, hv⟩, fun _ => rfl⟩
    · rename_i hv
      refine ⟨nofun, ?_⟩
      rintro ⟨w, hw, hadmits⟩
      cases hw
      exact absurd hadmits hv

theorem error?_eq_some {env : Environment} {s : Slot} {e : FillError} :
    s.error? env = some e ↔ (env.get? s.hole = none ∧ e = .unbound s.hole) ∨
      ∃ v, env.get? s.hole = some v ∧ s.admits v = false ∧ e = .mismatch s.hole := by
  unfold error?
  cases env.get? s.hole with
  | none =>
    refine ⟨fun h => .inl ⟨rfl, (Option.some.inj h).symm⟩, ?_⟩
    rintro (⟨-, rfl⟩ | ⟨_, hv, -, -⟩)
    · rfl
    · cases hv
  | some v =>
    show (if s.admits v = true then none else some (.mismatch s.hole)) = some e ↔ _
    split
    · rename_i hv
      refine ⟨nofun, ?_⟩
      rintro (⟨hn, -⟩ | ⟨w, hw, hadmits, -⟩)
      · cases hn
      · cases hw
        rw [hv] at hadmits
        cases hadmits
    · rename_i hv
      refine ⟨fun h => .inr ⟨v, rfl, Bool.eq_false_iff.mpr hv, (Option.some.inj h).symm⟩, ?_⟩
      rintro (⟨hn, -⟩ | ⟨_, -, -, rfl⟩)
      · cases hn
      · rfl

end Slot

namespace Tree

/-- The occurrence that a phrase is. -/
def slot? : {c : Category} → Tree c → Option Slot
  | _, .exprHead (.exprHole index _) => Option.some ⟨⟨.expression, index⟩, true⟩
  | _, t => t.hole?.map (⟨·, false⟩)

/-- What noting occurrences does at a phrase. -/
def slotHook : Hook (StateM (List Slot)) := fun _ t walk =>
  match t.slot? with
  | Option.some s => do
    modify (· ++ [s])
    return t
  | Option.none => walk ()

/-- The occurrences of holes that a walk meets, in order. -/
def slots {c : Category} (t : Tree c) : List Slot := ((t.visit slotHook).run []).2

theorem run_visit_of_slot {c : Category} {t : Tree c} {s : Slot} (h : t.slot? = Option.some s)
    (ss : List Slot) : (t.visit slotHook).run ss = (t, ss ++ [s]) := by
  unfold visit slotHook
  simp only [h]
  rfl

private theorem foldl_slots (ps : List Phrase) (ss : List Slot) :
    ps.foldl (fun ss p => ss ++ p.2.slots) ss = ss ++ ps.flatMap (·.2.slots) := by
  induction ps generalizing ss with
  | nil => rw [List.foldl_nil, List.flatMap_nil, List.append_nil]
  | cons p ps ih => rw [List.foldl_cons, List.flatMap_cons, ih, List.append_assoc]

theorem run_visit_of_parts {c : Category} {t : Tree c} (h : t.slot? = Option.none)
    (hparts : ∀ p ∈ t.visited, ∀ ss, (p.2.visit slotHook).run ss = (p.2, ss ++ p.2.slots))
    (ss : List Slot) :
    (t.visit slotHook).run ss = (t, ss ++ t.visited.flatMap (·.2.slots)) := by
  have hwalk : t.visit slotHook = t.descend slotHook := by
    unfold visit
    show (match t.slot? with
      | Option.some s => _
      | Option.none => t.descend slotHook) = t.descend slotHook
    simp only [h]
  rw [hwalk, descend_eq]
  refine (run_walkAll_unchanged t.rebuild ss hparts).trans ?_
  rw [rebuild_visited, foldl_slots]

theorem run_visit_slots {c : Category} (t : Tree c) (ss : List Slot) :
    (t.visit slotHook).run ss = (t, ss ++ t.slots) := by
  induction t using induction_on_parts generalizing ss with
  | step c t ih =>
    cases h : t.slot? with
    | some s => rw [slots, run_visit_of_slot h, run_visit_of_slot h, List.nil_append]
    | none =>
      have hrun := run_visit_of_parts h fun p hp => ih p (mem_parts_of_visited hp)
      rw [slots, hrun, hrun, List.nil_append]

theorem slots_of_slot {c : Category} {t : Tree c} {s : Slot} (h : t.slot? = Option.some s) :
    t.slots = [s] := by
  rw [slots, run_visit_of_slot h, List.nil_append]

theorem slots_of_parts {c : Category} {t : Tree c} (h : t.slot? = Option.none) :
    t.slots = t.visited.flatMap (·.2.slots) := by
  rw [slots, run_visit_of_parts h fun p _ => run_visit_slots p.2, List.nil_append]

theorem hole?_of_slot? {c : Category} {t : Tree c} (h : t.slot? = Option.none) :
    t.hole? = Option.none := by
  cases t <;> first | rfl | cases h

/-- Where dot accesses are named, every occurrence of a hole is noted. -/
theorem map_hole_slots {c : Category} {t : Tree c} (h : t.Everywhere fun p => p.2.dotNamed = true) :
    t.slots.map Slot.hole = t.holes := by
  induction t using induction_on_parts with
  | step c t ih =>
    cases hs : t.slot? with
    | some s =>
      rw [slots_of_slot hs]
      cases t with
      | exprHead e => cases e <;> first | cases hs; rfl | cases hs
      | stmtHole _ _ => cases hs; rfl
      | exprHole _ _ => cases hs; rfl
      | nameHole _ => cases hs; rfl
      | _ => cases hs
    | none =>
      have hrest : t.unvisited.flatMap (·.2.holes) = [] :=
        List.flatMap_eq_nil_iff.mpr fun q hq => holes_unvisited h.self hq
      rw [slots_of_parts hs, holes_eq, hole?_of_slot? hs, parts_eq, List.flatMap_append, hrest,
        List.append_nil, List.map_flatMap]
      exact List.flatMap_congr fun p hp => ih p (mem_parts_of_visited hp) (h.part (mem_parts_of_visited hp))

/-! ## Substitution at a phrase -/

/-- Away from occurrences, the values are put into the parts. -/
theorem subst_eq_rebuild {env : Environment} {c : Category} {t : Tree c} (hdot : t.dotNamed = true)
    (hslot : t.slot? = Option.none)
    (hblock : ∀ inner, (⟨c, t⟩ : Phrase) = ⟨_, .blockStmt inner⟩ →
      (Tree.blockStmt inner).subst env = .blockStmt (inner.subst env)) :
    t.subst env = t.rebuild (t.visited.map (substPhrase env)) := by
  cases t with
  | access computed optional target prop =>
    cases computed with
    | true => rfl
    | false =>
      cases prop with
      | literal l => rfl
      | _ => cases hdot
  | exprHead e => cases e <;> first | rfl | cases hslot
  | blockStmt inner => exact hblock inner rfl
  | stmtHole _ _ => cases hslot
  | exprHole _ _ => cases hslot
  | nameHole _ => cases hslot
  | cons h t =>
    show _ = Tree.cons (partAt [⟨_, h.subst env⟩, ⟨_, t.subst env⟩] 0 h)
      (partAt [⟨_, h.subst env⟩, ⟨_, t.subst env⟩] 1 t)
    rw [partAt_zero, partAt_succ, partAt_zero]
    rfl
  | some t =>
    show _ = Tree.some (partAt [⟨_, t.subst env⟩] 0 t)
    rw [partAt_zero]
    rfl
  | _ => rfl

end Tree

namespace Environment

/-- No value has holes. -/
def Closed (env : Environment) : Prop := ∀ k v, env.get? k = some v → v.phrase.2.holes = []

variable {env : Environment}

theorem Closed.phrase? (henv : env.Closed) {c : Category} {k : Hole} {t : Tree c}
    (h : env.phrase? c k = some t) : t.holes = [] := by
  obtain ⟨v, hv, hat⟩ := Option.bind_eq_some_iff.mp h
  have hclosed := henv k v hv
  rw [Bound.at?_eq_some.mp hat] at hclosed
  exact hclosed

theorem Closed.adopted? (henv : env.Closed) {inner b : Block}
    (h : Pattern.adopted? env inner = some b) : b.holes = [] := by
  obtain ⟨i, multiLine, s, -, hget, hs⟩ := Pattern.eq_of_adopted? h
  have hclosed : s.holes = [] := henv _ _ hget
  rcases hs with rfl | rfl | ⟨-, rfl⟩
  · exact Tree.holes_part hclosed List.mem_cons_self
  · exact Tree.holes_part hclosed List.mem_cons_self
  · rfl

end Environment

namespace Pattern

variable {env : Environment} {depth : Nat}

/-- The result of filling: an error where there is one, and otherwise the tree. -/
def answer {c : Category} (error : Option FillError) (t : Tree c) : Except FillError (Tree c) :=
  match error with
  | some e => .error e
  | none => .ok t

/-! ## Filling is substitution -/

theorem subst_of_hole? {c : Category} {t : Tree c} {k : Hole} (hk : t.hole? = some k) :
    t.subst env = (env.phrase? c k).getD t := by
  cases t <;> cases hk <;> rfl

theorem admits_of_hole? {c : Category} {t : Tree c} {k : Hole} (hk : t.hole? = some k) (v : Bound) :
    (⟨k, false⟩ : Slot).admits v = (v.at? c).isSome := by
  cases t <;> cases hk <;> cases v <;> rfl

/-- A hole away from loop heads is filled with its value, or reported. -/
theorem visit_of_hole_slot {c : Category} {t : Tree c} {k : Hole} (hk : t.hole? = some k) :
    t.visit (fillHook env depth) = answer (Slot.error? env ⟨k, false⟩) (t.subst env) := by
  rw [Tree.visit, fillHook_hole hk, subst_of_hole? hk, Environment.phrase?, Slot.error?]
  cases env.get? k with
  | none => rfl
  | some v =>
    simp only [admits_of_hole? hk, Option.bind_some]
    cases v.at? c <;> rfl

/-- A loop head that is a hole is filled with a declaration or with an expression, or reported. -/
theorem visit_of_head_slot (henv : env.Closed) {i : Nat} {b : Bool} :
    (Tree.exprHead (.exprHole i b)).visit (fillHook env depth) =
      answer (Slot.error? env ⟨⟨.expression, i⟩, true⟩) ((Tree.exprHead (.exprHole i b)).subst env) := by
  have hsubst : (Tree.exprHead (.exprHole i b)).subst env =
      match env.phrase? .varDecl ⟨.expression, i⟩ with
      | some d => .declHead d
      | none => .exprHead ((Tree.exprHole i b).subst env) := rfl
  have hwalk (h : ∀ d, env.get? ⟨.expression, i⟩ ≠ some (.decl d)) :
      (Tree.exprHead (.exprHole i b)).visit (fillHook env depth) =
        .exprHead <$> (Tree.exprHole i b).visit (fillHook env depth) := by
    rw [Tree.visit, fillHook_head]
    split
    · rename_i d hd
      exact absurd hd (h d)
    · rfl
  cases hget : env.get? ⟨.expression, i⟩ with
  | none =>
    rw [hwalk (by simp [hget]), Tree.visit, fillHook_hole rfl, hget, Slot.error?, hget]
    rfl
  | some v =>
    cases v with
    | decl d =>
      rw [visit_head hget (henv _ _ hget), hsubst, Environment.phrase?, Slot.error?, hget]
      rfl
    | _ =>
      rw [hwalk (by simp [hget]), Tree.visit, fillHook_hole rfl, hsubst, subst_of_hole? rfl,
        Environment.phrase?, Environment.phrase?, hget, Slot.error?, hget]
      rfl

/-- At an occurrence, filling puts in the value or reports the hole. -/
theorem visit_of_slot (henv : env.Closed) {c : Category} {t : Tree c} {s : Slot}
    (h : t.slot? = some s) :
    t.visit (fillHook env depth) = answer (s.error? env) (t.subst env) := by
  cases t with
  | exprHead e =>
    cases e <;> cases h
    exact visit_of_head_slot henv
  | nameHole _ => cases h; exact visit_of_hole_slot rfl
  | stmtHole _ _ => cases h; exact visit_of_hole_slot rfl
  | exprHole _ _ => cases h; exact visit_of_hole_slot rfl
  | _ => cases h

/-! ## Blocks of one hole -/

/-- A block that takes over statements becomes the block of them. -/
theorem subst_of_adopted? {inner b : Block} (h : adopted? env inner = some b) :
    (Tree.blockStmt inner).subst env = .blockStmt b := by
  obtain ⟨i, multiLine, s, rfl, hget, hs⟩ := eq_of_adopted? h
  have hphrase : env.phrase? .stmt ⟨.statement, i⟩ = some s := by
    rw [Environment.phrase?, hget]
    rfl
  have hlone : Tree.loneBlock? env (.stmts (.cons (.stmtHole i multiLine) .nil)) = some s.opened :=
    congrArg (Option.map Tree.opened) hphrase
  show (match Tree.loneBlock? env (.stmts (.cons (.stmtHole i multiLine) .nil)) with
    | some opened => Tree.blockStmt opened
    | none => _) = _
  rw [hlone]
  rcases hs with rfl | rfl | ⟨rfl, rfl⟩ <;> rfl

/-- Whatever a block takes over has a value. -/
theorem error?_of_adopted? {inner b : Block} (h : adopted? env inner = some b) :
    (Tree.blockStmt inner).slots.findSome? (·.error? env) = none := by
  obtain ⟨i, multiLine, s, rfl, hget, -⟩ := eq_of_adopted? h
  have hslots : (Tree.blockStmt (.stmts (.cons (.stmtHole i multiLine) .nil))).slots =
      [⟨⟨.statement, i⟩, false⟩] := rfl
  rw [hslots, List.findSome?_cons, Slot.error?, hget]
  rfl

/-- A block that takes over nothing is the block of what its statements become. -/
theorem subst_of_not_adopted {inner : Block} (h : adopted? env inner = none) :
    (Tree.blockStmt inner).subst env = .blockStmt (inner.subst env) := by
  show (match inner.loneBlock? env with
    | some opened => Tree.blockStmt opened
    | none => .blockStmt (inner.subst env)) = _
  split
  · rename_i b hb
    unfold Tree.loneBlock? at hb
    split at hb
    · rename_i i multiLine hinner
      obtain ⟨s, hs, rfl⟩ := Option.map_eq_some_iff.mp hb
      -- a value that is no block stands in the block alone
      have hopened : s.opened = Tree.blockOf [s] := by
        obtain ⟨v, hv, hat⟩ := Option.bind_eq_some_iff.mp hs
        rw [Bound.at?_eq_some] at hat
        cases v <;> cases hat
        rw [adopted?, hinner] at h
        simp only [hv] at h
        cases s <;> first | rfl | cases h
      obtain rfl : inner = Tree.blockOf [.stmtHole i multiLine] := by
        rw [← hinner, Tree.blockOf_statements]
      have hsubst : (Tree.blockOf [.stmtHole i multiLine]).subst env =
          Tree.blockOf [(env.phrase? .stmt ⟨.statement, i⟩).getD (.stmtHole i multiLine)] := rfl
      rw [hsubst, hs, hopened]
      rfl
    · cases hb
  · rfl

/-- Away from occurrences and from blocks that take over statements, the values are put into the
parts. -/
theorem subst_of_parts {c : Category} {t : Tree c} (hdot : t.dotNamed = true)
    (hslot : t.slot? = none)
    (h : ¬ ∃ inner b, (⟨c, t⟩ : Phrase) = ⟨_, .blockStmt inner⟩ ∧ adopted? env inner = some b) :
    t.subst env = t.rebuild (t.visited.map (Tree.substPhrase env)) := by
  apply Tree.subst_eq_rebuild hdot hslot
  intro inner hblock
  apply subst_of_not_adopted
  cases hadopted : adopted? env inner with
  | none => rfl
  | some b => exact absurd ⟨inner, b, hblock, hadopted⟩ h

/-! ## Templates -/

/-- The phrases that a list of answers gives, one error standing for all. -/
theorem walkAll_answer {c : Category} {f : (c : Category) → Tree c → Except FillError (Tree c)}
    {ps : List Phrase}
    (h : ∀ p ∈ ps, f p.1 p.2 = answer (p.2.slots.findSome? (·.error? env)) (p.2.subst env))
    (build : List Phrase → Tree c) :
    Tree.walkAll f ps build =
      answer ((ps.flatMap (·.2.slots)).findSome? (·.error? env)) (build (ps.map (Tree.substPhrase env))) := by
  induction ps generalizing build with
  | nil => rfl
  | cons p ps ih =>
    rw [Tree.walkAll, h p List.mem_cons_self, List.flatMap_cons, List.findSome?_append]
    cases p.2.slots.findSome? (·.error? env) with
    | some e => rfl
    | none => exact ih (fun q hq => h q (List.mem_cons_of_mem _ hq)) _

/-- Filling is substitution, unless some occurrence has nothing to stand there. -/
theorem visit_eq_subst (henv : env.Closed) {c : Category} {t : Tree c}
    (ht : t.Everywhere fun p => p.2.dotNamed = true) :
    t.visit (fillHook env depth) = answer (t.slots.findSome? (·.error? env)) (t.subst env) := by
  induction t using Tree.induction_on_parts with
  | step c t ih =>
    cases hslot : t.slot? with
    | some s =>
      rw [Tree.slots_of_slot hslot, List.findSome?_cons, visit_of_slot henv hslot]
      cases s.error? env <;> rfl
    | none =>
      have hparts : t.descend (fillHook env depth) =
          answer (t.slots.findSome? (·.error? env)) (t.rebuild (t.visited.map (Tree.substPhrase env))) := by
        rw [Tree.descend_eq, Tree.slots_of_parts hslot]
        apply walkAll_answer
        intro p hp
        exact ih p (Tree.mem_parts_of_visited hp) (ht.part (Tree.mem_parts_of_visited hp))
      by_cases hadopted : ∃ inner b, (⟨c, t⟩ : Phrase) = ⟨_, .blockStmt inner⟩ ∧ adopted? env inner = some b
      · obtain ⟨inner, b, hblock, hadopted⟩ := hadopted
        cases hblock
        rw [error?_of_adopted? hadopted, subst_of_adopted? hadopted, Tree.visit, fillHook_block,
          hadopted]
        rfl
      · rw [subst_of_parts ht.self hslot hadopted, ← hparts]
        rcases visit_cases env depth (Tree.hole?_of_slot? hslot) with hwalk | hblock | ⟨i, b, d, hhead, -⟩
        · exact hwalk
        · exact absurd hblock hadopted
        · cases hhead
          cases hslot

/-- What stands for a hole has no holes. -/
theorem holes_subst_of_hole? (henv : env.Closed) {c : Category} {t : Tree c} {k : Hole}
    (hk : t.hole? = some k) (h : Slot.error? env ⟨k, false⟩ = none) : (t.subst env).holes = [] := by
  obtain ⟨v, hv, hadmits⟩ := Slot.error?_eq_none.mp h
  rw [admits_of_hole? hk] at hadmits
  obtain ⟨u, hu⟩ := Option.isSome_iff_exists.mp hadmits
  have hphrase : env.phrase? c k = some u := by
    rw [Environment.phrase?, hv]
    exact hu
  rw [subst_of_hole? hk, hphrase]
  exact henv.phrase? hphrase

/-- What stands at an occurrence has no holes. -/
theorem holes_subst_of_slot (henv : env.Closed) {c : Category} {t : Tree c} {s : Slot}
    (hslot : t.slot? = some s) (h : s.error? env = none) : (t.subst env).holes = [] := by
  cases t with
  | exprHead e =>
    cases e with
    | exprHole i b =>
      cases hslot
      show (match env.phrase? .varDecl ⟨.expression, i⟩ with
        | some d => Tree.declHead d
        | none => .exprHead ((Tree.exprHole i b).subst env)).holes = []
      cases hd : env.phrase? .varDecl ⟨.expression, i⟩ with
      | some d =>
        apply Tree.holes_of_parts rfl
        intro q hq
        rw [List.mem_singleton.mp hq]
        exact henv.phrase? hd
      | none =>
        apply Tree.holes_of_parts rfl
        intro q hq
        rw [List.mem_singleton.mp hq]
        -- what is no declaration stands for the expression
        apply holes_subst_of_hole? henv rfl
        obtain ⟨v, hv, hadmits⟩ := Slot.error?_eq_none.mp h
        rw [Environment.phrase?, hv] at hd
        cases v with
        | decl d => cases hd
        | _ => exact Slot.error?_eq_none.mpr ⟨_, hv, hadmits⟩
    | _ => cases hslot
  | nameHole _ => cases hslot; exact holes_subst_of_hole? henv rfl h
  | stmtHole _ _ => cases hslot; exact holes_subst_of_hole? henv rfl h
  | exprHole _ _ => cases hslot; exact holes_subst_of_hole? henv rfl h
  | _ => cases hslot

/-- With a value for every occurrence, substitution leaves no holes. -/
theorem holes_subst (henv : env.Closed) {c : Category} {t : Tree c}
    (ht : t.Everywhere fun p => p.2.dotNamed = true) (h : ∀ s ∈ t.slots, s.error? env = none) :
    (t.subst env).holes = [] := by
  induction t using Tree.induction_on_parts with
  | step c t ih =>
    cases hslot : t.slot? with
    | some s =>
      have herror : s.error? env = none := h s (by rw [Tree.slots_of_slot hslot]; exact List.mem_cons_self)
      exact holes_subst_of_slot henv hslot herror
    | none =>
      by_cases hadopted : ∃ inner b, (⟨c, t⟩ : Phrase) = ⟨_, .blockStmt inner⟩ ∧ adopted? env inner = some b
      · obtain ⟨inner, b, hblock, hadopted⟩ := hadopted
        cases hblock
        rw [subst_of_adopted? hadopted]
        apply Tree.holes_of_parts rfl
        intro q hq
        rw [List.mem_singleton.mp hq]
        exact henv.adopted? hadopted
      · rw [subst_of_parts ht.self hslot hadopted]
        apply Tree.holes_rebuild
        · rw [List.map_map]
          rfl
        · exact Tree.hole?_of_slot? hslot
        · intro q hq
          exact Tree.holes_unvisited ht.self hq
        · intro u hu
          obtain ⟨p, hp, rfl⟩ := List.mem_map.mp hu
          apply ih p (Tree.mem_parts_of_visited hp) (ht.part (Tree.mem_parts_of_visited hp))
          intro s hs
          apply h s
          rw [Tree.slots_of_parts hslot]
          exact List.mem_flatMap_of_mem hp hs

/-- Filling is exact. A template whose dot accesses are named can be filled from values without holes
if and only if every occurrence of a hole has a value that can stand there; the result then has no
holes and is the template with the values substituted. Otherwise the error is that of the first
occurrence, in the order of walks, that has no value or one that cannot stand there. -/
theorem fillTree_exact (henv : env.Closed) {c : Category} {t : Tree c}
    (ht : t.Everywhere fun p => p.2.dotNamed = true) :
    t.slots.map Slot.hole = t.holes ∧
      ((∃ u, fillTree env t = .ok u) ↔
        ∀ s ∈ t.slots, ∃ v, env.get? s.hole = some v ∧ s.admits v = true) ∧
      (∀ u, fillTree env t = .ok u → u.holes = [] ∧ u = t.subst env) ∧
      ∀ e, fillTree env t = .error e →
        ∃ before s after, t.slots = before ++ s :: after ∧
          (∀ r ∈ before, ∃ v, env.get? r.hole = some v ∧ r.admits v = true) ∧
          ((env.get? s.hole = none ∧ e = .unbound s.hole) ∨
            ∃ v, env.get? s.hole = some v ∧ s.admits v = false ∧ e = .mismatch s.hole) := by
  have hfill : fillTree env t = answer (t.slots.findSome? (·.error? env)) (t.subst env) :=
    visit_eq_subst henv ht
  have hnone : t.slots.findSome? (·.error? env) = none ↔
      ∀ s ∈ t.slots, ∃ v, env.get? s.hole = some v ∧ s.admits v = true := by
    simp only [List.findSome?_eq_none_iff, Slot.error?_eq_none]
  refine ⟨Tree.map_hole_slots ht, ?_, ?_, ?_⟩
  · rw [hfill, ← hnone]
    cases t.slots.findSome? (·.error? env) with
    | none => exact ⟨fun _ => rfl, fun _ => ⟨_, rfl⟩⟩
    | some e => exact ⟨fun ⟨_, h⟩ => (nomatch h), fun h => (nomatch h)⟩
  · intro u hu
    rw [hfill] at hu
    cases herror : t.slots.findSome? (·.error? env) with
    | none =>
      rw [herror] at hu
      cases hu
      exact ⟨holes_subst henv ht (List.findSome?_eq_none_iff.mp herror), rfl⟩
    | some e =>
      rw [herror] at hu
      cases hu
  · intro e he
    rw [hfill] at he
    cases herror : t.slots.findSome? (·.error? env) with
    | none =>
      rw [herror] at he
      cases he
    | some e' =>
      rw [herror] at he
      cases he
      obtain ⟨before, s, after, hslots, hs, hbefore⟩ := List.findSome?_eq_some_iff.mp herror
      refine ⟨before, s, after, hslots, ?_, Slot.error?_eq_some.mp hs⟩
      intro r hr
      exact Slot.error?_eq_none.mp (hbefore r hr)

/-- A loop over a declaration whose body is a block of one hole, with a block for it. -/
theorem fillTree_exact_loop :
    let t : Stmt := .forOf false (.exprHead (.exprHole 1 false)) (.exprHole 2 false)
      (.body (.blockStmt (.blockOf [.stmtHole 3 false])))
    let env : Environment := ⟨[
      (⟨.expression, 1⟩, .decl (.varDecl .constant .nil)),
      (⟨.expression, 2⟩, .expr .this),
      (⟨.statement, 3⟩, .stmt (.blockStmt (.blockOf [.debugger, .emptyStmt])))]⟩
    fillTree env t = .ok (.forOf false (.declHead (.varDecl .constant .nil)) .this
        (.body (.blockStmt (.blockOf [.debugger, .emptyStmt])))) ∧
      t.slots.map Slot.hole = t.holes ∧
      ((∃ u, fillTree env t = .ok u) ↔
        ∀ s ∈ t.slots, ∃ v, env.get? s.hole = some v ∧ s.admits v = true) ∧
      (∀ u, fillTree env t = .ok u → u.holes = [] ∧ u = t.subst env) ∧
      ∀ e, fillTree env t = .error e →
        ∃ before s after, t.slots = before ++ s :: after ∧
          (∀ r ∈ before, ∃ v, env.get? r.hole = some v ∧ r.admits v = true) ∧
          ((env.get? s.hole = none ∧ e = .unbound s.hole) ∨
            ∃ v, env.get? s.hole = some v ∧ s.admits v = false ∧ e = .mismatch s.hole) := by
  intro t env
  have henv : env.Closed := by
    intro k v hv
    obtain ⟨before, after, hentries, -⟩ := List.lookup_eq_some_iff.mp hv
    have hmem : (k, v) ∈ env.entries := hentries ▸ List.mem_append_right before List.mem_cons_self
    simp only [env, List.mem_cons, List.not_mem_nil, or_false] at hmem
    rcases hmem with h | h | h <;> cases h <;> rfl
  have ht : t.Everywhere fun p => p.2.dotNamed = true := by
    unfold Tree.Everywhere
    decide
  exact ⟨rfl, fillTree_exact henv ht⟩

end Pattern

end Unminify
