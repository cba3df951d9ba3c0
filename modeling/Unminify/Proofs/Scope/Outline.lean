import Unminify.Proofs.Syntax.Parts
import Unminify.Scope.Declared

/-!
# Outlines

The **outline** of a phrase is what scope analysis sees of it: the scopes it opens, each with the
names declared when it is entered, and the identifiers it refers to, in order. All else is left out.

A block function of sloppy code stands among the names of the function around it, and not among the
names of its block. That is where analysis declares it, unless a `let`, `const` or class has its name
(`Outline.NoClash` rules this out).

`counted` says that an outline names no identifier more often than the phrase does.
-/

namespace Unminify

/-- The scopes of a phrase, and what is referred to in them. -/
inductive Outline
  | nil
  | reference (name : Name) (rest : Outline)
  /-- A scope, with the names declared in it, the block functions hoisted to it, what is inside it
  and what comes after it. -/
  | scope (kind : ScopeKind) (declared : List (Name × BindingKind)) (hoisted : List Name)
      (inner rest : Outline)

/-- Whether a binding of this kind keeps block functions of its name out of its scope. -/
def BindingKind.blocks (kind : BindingKind) : Bool :=
  [BindingKind.lexical, .constant, .classDef].contains kind

namespace Outline

/-- One outline after another. -/
def append : Outline → Outline → Outline
  | nil, o => o
  | reference name rest, o => reference name (rest.append o)
  | scope kind declared hoisted inner rest, o => scope kind declared hoisted inner (rest.append o)

/-- Several outlines in a row. -/
def join (os : List Outline) : Outline := os.foldr append nil

/-- All that is declared in a scope. -/
def allDeclared (declared : List (Name × BindingKind)) (hoisted : List Name) :
    List (Name × BindingKind) :=
  declared ++ hoisted.map (·, .function)

/-- The names of an outline, as often as they occur. -/
def names : Outline → List Name
  | nil => []
  | reference name rest => name :: rest.names
  | scope _ declared hoisted inner rest =>
    (allDeclared declared hoisted).map Prod.fst ++ inner.names ++ rest.names

/-- No hoisted block function has the name of a `let`, `const` or class of the scope it is hoisted
to. -/
def NoClash : Outline → Prop
  | nil => True
  | reference _ rest => rest.NoClash
  | scope _ declared hoisted inner rest =>
    (∀ f ∈ hoisted, ∀ d ∈ declared, d.2.blocks = true → f.nameText? ≠ d.1.nameText?) ∧
      inner.NoClash ∧ rest.NoClash

instance decidableNoClash : (o : Outline) → Decidable o.NoClash
  | nil => isTrue trivial
  | reference _ rest => decidableNoClash rest
  | scope _ declared hoisted inner rest =>
    have := decidableNoClash inner
    have := decidableNoClash rest
    inferInstanceAs (Decidable ((∀ f ∈ hoisted, ∀ d ∈ declared, d.2.blocks = true →
      f.nameText? ≠ d.1.nameText?) ∧ inner.NoClash ∧ rest.NoClash))

@[simp] theorem append_nil (o : Outline) : o.append nil = o := by
  induction o with
  | nil => rfl
  | reference name rest ih => rw [append, ih]
  | scope kind declared hoisted inner rest _ ih => rw [append, ih]

theorem names_append (o o' : Outline) : (o.append o').names = o.names ++ o'.names := by
  induction o with
  | nil => rfl
  | reference name rest ih => rw [append, names, names, ih, List.cons_append]
  | scope kind declared hoisted inner rest _ ih =>
    simp only [append, names, ih, List.append_assoc]

theorem names_join (os : List Outline) : (join os).names = os.flatMap names := by
  induction os with
  | nil => rfl
  | cons o os ih => rw [join, List.foldr_cons, names_append, List.flatMap_cons, ← ih, join]

theorem noClash_append {o o' : Outline} : (o.append o').NoClash ↔ o.NoClash ∧ o'.NoClash := by
  induction o with
  | nil => exact ⟨fun h => ⟨trivial, h⟩, fun h => h.2⟩
  | reference name rest ih => exact ih
  | scope kind declared hoisted inner rest _ ih =>
    rw [append, NoClash, NoClash, ih, and_assoc, and_assoc]

theorem noClash_join {os : List Outline} : (join os).NoClash ↔ ∀ o ∈ os, o.NoClash := by
  induction os with
  | nil => exact ⟨fun _ o ho => (nomatch ho), fun _ => trivial⟩
  | cons o os ih =>
    rw [List.forall_mem_cons, ← ih]
    exact noClash_append

end Outline

namespace Tree

/-! ## Outlines of trees -/

/-- What a nested statement list or a loop head declares. -/
def nestedNames {c : Category} (strict : Bool) (t : Tree c) : List (Name × BindingKind) :=
  if strict then t.lexicalNames else t.lexicalNames.filter (·.2 != .function)

/-- The block functions that a body hoists. -/
def hoistedNames (strict : Bool) (body : Block) : List Name :=
  if strict then [] else body.blockFunctions false

/-- What a function declares in its scope: its own name if that is given, its parameters, and the
variables and names of its body. -/
def functionNames (own : List Name) (params : Tree (.list .binder)) (body : Block) :
    List (Name × BindingKind) :=
  own.map (·, .function) ++ params.boundNames.map (·, .param) ++ body.hoistedVars.map (·, .var) ++
    body.lexicalNames

/-- The scope of a function. -/
def functionScope (own : List Name) (strict : Bool) (params : Tree (.list .binder)) (body : Block)
    (inner : Outline) : Outline :=
  .scope .function (functionNames own params body) (hoistedNames strict body) inner .nil

/-- The scope of a nested statement list or a loop head. -/
def nestedScope {c : Category} (kind : ScopeKind) (strict : Bool) (t : Tree c) (inner : Outline) :
    Outline :=
  .scope kind (nestedNames strict t) [] inner .nil

/-- A scope with names of one kind: that of a class, or of the parameters of a `catch`. -/
def namedScope (kind : ScopeKind) (as : BindingKind) (own : List Name) (inner : Outline) : Outline :=
  .scope kind (own.map (·, as)) [] inner .nil

/-- The scope of a `finally` block, if there is one. -/
def finallyScope (strict : Bool) (finalizer : Tree (.option .block)) (inner : Outline) : Outline :=
  match finalizer.toOption with
  | Option.some last => nestedScope .block strict last inner
  | Option.none => .nil

open Outline in
/-- The outline of a phrase in code that may be strict. -/
def outline : {c : Category} → Tree c → (strict : Bool) → Outline
  | _, .identExpr name, _ => .reference name .nil
  | _, .template _ substitutions, st => join [substitutions.outline st]
  | _, .tagged _ tag substitutions, st => join [tag.outline st, substitutions.outline st]
  | _, .array elements, st => join [elements.outline st]
  | _, .object properties, st => join [properties.outline st]
  | _, .functionExpr (.function _ _ name params inner), st =>
    let st := st || inner.isStrict
    functionScope name.toOption.toList st params inner (join [params.outline st, inner.outline st])
  | _, .arrow _ params inner, st =>
    let st := st || inner.arrowBlock.isStrict
    functionScope [] st params inner.arrowBlock (join [params.outline st, inner.outline st])
  | _, .classExpr (.classDef name heritage members), st =>
    join [heritage.outline st, namedScope .classBody .classDef name.toOption.toList (members.outline true)]
  | _, .unary _ arg, st => join [arg.outline st]
  | _, .update _ _ arg, st => join [arg.outline st]
  | _, .binary _ left right, st => join [left.outline st, right.outline st]
  | _, .assign _ target value, st => join [target.outline st, value.outline st]
  | _, .conditional test consequent alternate, st =>
    join [test.outline st, consequent.outline st, alternate.outline st]
  | _, .call _ callee args, st => join [callee.outline st, args.outline st]
  | _, .new callee args, st => join [callee.outline st, args.outline st]
  | _, .access computed _ target prop, st =>
    if computed then join [target.outline st, prop.outline st] else join [target.outline st]
  | _, .comma parts, st => join [parts.outline st]
  | _, .spread arg, st => join [arg.outline st]
  | _, .await arg, st => join [arg.outline st]
  | _, .yield _ arg, st => join [arg.outline st]
  | _, .arrayBinder elements, st => join [elements.outline st]
  | _, .objectBinder properties, st => join [properties.outline st]
  | _, .defaultBinder target value, st => join [target.outline st, value.outline st]
  | _, .restBinder target, st => join [target.outline st]
  | _, .keyedBinder key value, st => join [key.outline st, value.outline st]
  | _, .shortBinder name value, st => join [name.outline st, value.outline st]
  | _, .restProp target, st => join [target.outline st]
  | _, .computedKey expr, st => join [expr.outline st]
  | _, .keyed key value, st => join [key.outline st, value.outline st]
  | _, .shorthand name, _ => .reference name .nil
  | _, .methodProp _ key (.function _ _ _ params inner), st =>
    let st' := st || inner.isStrict
    join [key.outline st,
      functionScope [] st' params inner (join [params.outline st', inner.outline st'])]
  | _, .spreadProp arg, st => join [arg.outline st]
  | _, .exprBody value, st => value.outline st
  | _, .blockBody inner, st => inner.outline st
  | _, .method _ _ key (.function _ _ _ params inner), st =>
    let st' := st || inner.isStrict
    join [key.outline st,
      functionScope [] st' params inner (join [params.outline st', inner.outline st'])]
  | _, .field _ key value, st => join [key.outline st, value.outline st]
  | _, .staticBlock inner, st =>
    functionScope [] (st || inner.isStrict) .nil inner (join [inner.outline (st || inner.isStrict)])
  | _, .nameBinder name, st => join [name.outline st]
  | _, .varDecl _ declarators, st => join [declarators.outline st]
  | _, .declarator target init, st => join [target.outline st, init.outline st]
  | _, .declHead decl, st => join [decl.outline st]
  | _, .exprHead expr, st => join [expr.outline st]
  | _, .switchCase test inner, st => join [test.outline st, inner.outline st]
  | _, .handler param inner, st =>
    namedScope .catchClause .catchParam param.boundNames
      (join [param.outline st, nestedScope .block st inner (inner.outline st)])
  | _, .exprStmt expr, st => join [expr.outline st]
  | _, .varStmt decl, st => join [decl.outline st]
  | _, .functionStmt (.function _ _ _ params inner), st =>
    let st := st || inner.isStrict
    functionScope [] st params inner (join [params.outline st, inner.outline st])
  | _, .classStmt (.classDef _ heritage members), st =>
    join [heritage.outline st, namedScope .classBody .classDef [] (members.outline true)]
  | _, .blockStmt inner, st => nestedScope .block st inner (inner.outline st)
  | _, .ifStmt test consequent alternate, st =>
    join [test.outline st, consequent.outline st, alternate.outline st]
  | _, .forStmt init test step inner, st =>
    nestedScope .loopHead st init
      (join [init.outline st, test.outline st, step.outline st, inner.outline st])
  | _, .forIn left right inner, st =>
    nestedScope .loopHead st left (join [left.outline st, right.outline st, inner.outline st])
  | _, .forOf _ left right inner, st =>
    nestedScope .loopHead st left (join [left.outline st, right.outline st, inner.outline st])
  | _, .whileStmt test inner, st => join [test.outline st, inner.outline st]
  | _, .doWhile test inner, st => join [test.outline st, inner.outline st]
  | _, .returnStmt value, st => join [value.outline st]
  | _, .throwStmt value, st => join [value.outline st]
  | _, .labeled _ inner, st => join [inner.outline st]
  | _, .switchStmt discriminant cases, st =>
    join [discriminant.outline st, nestedScope .block st cases (cases.outline st)]
  | _, .tryStmt inner caught finalizer, st =>
    join [nestedScope .block st inner (inner.outline st), caught.outline st,
      finallyScope st finalizer (finalizer.outline st)]
  | _, .sequence inner, st => join [inner.outline st]
  | _, .stmts items, st => join [items.outline st]
  | _, .body stmt, st => join [stmt.outline st]
  | _, .cons head tail, st => join [head.outline st, tail.outline st]
  | _, .some value, st => join [value.outline st]
  | _, _, _ => .nil

/-- Whether a phrase opens no scope and refers to nothing by itself. Definitions of functions and
classes and the bodies of arrows are left to the phrases around them. -/
def plain : {c : Category} → Tree c → Bool
  | _, .identExpr _ | _, .shorthand _ | _, .functionExpr _ | _, .arrow _ _ _ | _, .classExpr _
  | _, .methodProp _ _ _ | _, .function _ _ _ _ _ | _, .exprBody _ | _, .blockBody _
  | _, .classDef _ _ _ | _, .method _ _ _ _ | _, .staticBlock _ | _, .handler _ _
  | _, .functionStmt _ | _, .classStmt _ | _, .blockStmt _ | _, .forStmt _ _ _ _ | _, .forIn _ _ _
  | _, .forOf _ _ _ _ | _, .switchStmt _ _ | _, .tryStmt _ _ _ => false
  | _, _ => true

/-- The outline of a plain phrase is made of the outlines of its parts. -/
theorem outline_of_plain {c : Category} {t : Tree c} (h : t.plain = true) (st : Bool) :
    t.outline st = .join (t.visited.map fun p => p.2.outline st) := by
  cases t
  case access computed _ _ _ => cases computed <;> rfl
  all_goals first | rfl | exact absurd h Bool.false_ne_true

/-! ## Positions -/

/-- The position of a phrase, if it is an identifier. -/
def position? : {c : Category} → Tree c → Option (Option Nat)
  | .name, t => Option.some t.nameId?
  | _, _ => Option.none

/-- The positions of the identifiers of a tree. -/
def positions {c : Category} (t : Tree c) : List (Option Nat) := t.phrases.filterMap (·.2.position?)

theorem positions_eq {c : Category} (t : Tree c) :
    t.positions = t.position?.toList ++ t.parts.flatMap (·.2.positions) :=
  filterMap_phrases _ t

/-- All identifiers have positions, and no two have the same. -/
structure Positioned {c : Category} (t : Tree c) : Prop where
  placed : Option.none ∉ t.positions
  distinct : t.positions.Nodup

/-- What a measure comes to over a list. -/
def total {α : Type} (f : α → Nat) (xs : List α) : Nat := xs.foldr (fun x n => f x + n) 0

section

variable {α β : Type} {f g h : α → Nat}

theorem total_append (f : α → Nat) (xs ys : List α) :
    total f (xs ++ ys) = total f xs + total f ys := by
  induction xs with
  | nil => exact (Nat.zero_add _).symm
  | cons x xs ih =>
    show f x + total f (xs ++ ys) = f x + total f xs + total f ys
    omega

theorem total_map (f : α → Nat) (k : β → α) (xs : List β) : total f (xs.map k) = total (f ∘ k) xs := by
  rw [total, List.foldr_map]
  rfl

theorem count_flatMap (i : Option Nat) (k : α → List (Option Nat)) (xs : List α) :
    (xs.flatMap k).count i = total (fun x => (k x).count i) xs := by
  induction xs with
  | nil => rfl
  | cons x xs ih =>
    rw [List.flatMap_cons, List.count_append, ih]
    rfl

theorem total_le {xs : List α} (hle : ∀ x ∈ xs, f x + g x ≤ h x) :
    total f xs + total g xs ≤ total h xs := by
  induction xs with
  | nil => exact Nat.le_refl _
  | cons x xs ih =>
    have hx := hle x List.mem_cons_self
    have hxs := ih fun y hy => hle y (List.mem_cons_of_mem _ hy)
    show f x + total f xs + (g x + total g xs) ≤ h x + total h xs
    omega

end

/-- How often a position occurs in a tree. -/
def occurs (i : Option Nat) {c : Category} (t : Tree c) : Nat := t.positions.count i

/-- How often a position occurs among names. -/
def tally (i : Option Nat) (ns : List Name) : Nat := (ns.map nameId?).count i

/-- How often a position occurs in the outline of a tree. -/
def mentions (i : Option Nat) {c : Category} (t : Tree c) (st : Bool) : Nat :=
  tally i (t.outline st).names

section

variable {i : Option Nat} {c : Category}

theorem occurs_eq (i : Option Nat) (t : Tree c) :
    occurs i t = t.position?.toList.count i + total (fun p => occurs i p.2) t.parts := by
  rw [occurs, positions_eq, List.count_append, count_flatMap]
  rfl

theorem occurs_name (i : Option Nat) (n : Name) : occurs i n = tally i [n] := by
  cases n <;> exact occurs_eq i _

theorem tally_append (i : Option Nat) (ns ms : List Name) :
    tally i (ns ++ ms) = tally i ns + tally i ms := by
  rw [tally, List.map_append, List.count_append, tally, tally]

theorem tally_toOption (i : Option Nat) (n : Tree (.option .name)) :
    tally i n.toOption.toList ≤ occurs i n := by
  cases n with
  | none => exact Nat.zero_le _
  | some n =>
    have h : occurs i (some n) = 0 + (occurs i n + 0) := occurs_eq i _
    rw [h, occurs_name, Nat.zero_add, Nat.add_zero]
    exact Nat.le_refl _

theorem mentions_of_plain {t : Tree c} (h : t.plain = true) (i : Option Nat) (st : Bool) :
    mentions i t st = total (fun p => mentions i p.2 st) t.visited := by
  rw [mentions, outline_of_plain h, Outline.names_join, tally, List.map_flatMap, count_flatMap,
    total_map]
  rfl

end

/-! ## Counting -/

/-- The block functions that are hoisted out of a phrase; strict code has none. -/
def blockNames (st nested : Bool) {c : Category} (t : Tree c) : List Name :=
  if st then [] else t.blockFunctions nested

/-- How often a position occurs among the names that belong to the scopes around a phrase in a nested
statement list. -/
def lifted (i : Option Nat) (st : Bool) {c : Category} (t : Tree c) : Nat :=
  tally i t.hoistedVars + tally i ((nestedNames st t).map Prod.fst) + tally i (blockNames st true t)

/-- How often a position occurs among the names that belong to the scopes around a phrase at the top
of a body. -/
def liftedTop (i : Option Nat) (st : Bool) {c : Category} (t : Tree c) : Nat :=
  tally i t.hoistedVars + tally i (t.lexicalNames.map Prod.fst) + tally i (blockNames st false t)

/-- The categories of statements and of lists of them. -/
def isStatements : Category → Bool
  | .stmt | .block | .list .stmt => true
  | _ => false

/-- The outline of a phrase, together with what the scopes around it declare on its behalf, names no
identifier more often than the phrase does. -/
structure Counted (i : Option Nat) {c : Category} (t : Tree c) : Prop where
  bound : ∀ st, tally i t.boundNames + mentions i t st ≤ occurs i t
  nested : ∀ st, lifted i st t + mentions i t st ≤ occurs i t
  top : isStatements c = true → ∀ st, liftedTop i st t + mentions i t st ≤ occurs i t

section

variable {i : Option Nat}

theorem Counted.mentions_le {c : Category} {t : Tree c} (h : Counted i t) (st : Bool) :
    mentions i t st ≤ occurs i t :=
  Nat.le_trans (Nat.le_add_left _ _) (h.bound st)

/-- What is bounded part by part is bounded on a plain phrase. -/
theorem le_occurs_of_plain {c : Category} {t : Tree c} (hplain : t.plain = true) {st : Bool}
    {f : {c : Category} → Tree c → Nat} (hf : f t ≤ total (fun p => f p.2) t.visited)
    (ih : ∀ p ∈ t.parts, f p.2 + mentions i p.2 st ≤ occurs i p.2) :
    f t + mentions i t st ≤ occurs i t := by
  have hparts : total (fun p => f p.2) t.visited + total (fun p => mentions i p.2 st) t.visited ≤
      total (fun p => occurs i p.2) t.visited :=
    total_le fun p hp => ih p (t.parts_eq ▸ List.mem_append_left _ hp)
  rw [mentions_of_plain hplain, occurs_eq, parts_eq, total_append]
  omega

theorem tally_nestedNames_cons {c : Category} (st : Bool) (h : Tree c) (t : Tree (.list c)) :
    tally i ((nestedNames st (cons h t)).map Prod.fst) =
      tally i ((nestedNames st h).map Prod.fst) + tally i ((nestedNames st t).map Prod.fst) := by
  cases st with
  | true =>
    show tally i ((h.lexicalNames ++ t.lexicalNames).map Prod.fst) = _
    rw [List.map_append, tally_append]
    rfl
  | false =>
    show tally i (((h.lexicalNames ++ t.lexicalNames).filter (·.2 != .function)).map Prod.fst) = _
    rw [List.filter_append, List.map_append, tally_append]
    rfl

theorem tally_ite_append {st : Bool} {ns ms : List Name} :
    tally i (if st then [] else ns ++ ms) =
      tally i (if st then [] else ns) + tally i (if st then [] else ms) := by
  cases st with
  | true => rfl
  | false => exact tally_append i ns ms

/-- A statement governed by another lifts its variables and block functions only. -/
theorem lifted_governed {c : Category} (st : Bool) (t : Tree c) :
    tally i t.hoistedVars + tally i ((if st then [] else [] : List (Name × BindingKind)).map Prod.fst) +
      tally i (blockNames st true t) ≤ lifted i st t := by
  have hzero : tally i ((if st then [] else [] : List (Name × BindingKind)).map Prod.fst) = 0 := by
    cases st <;> rfl
  simp only [lifted]
  omega

/-- A declaration lifts no block functions. -/
theorem lifted_decl (st : Bool) (t : VarDecl) :
    tally i t.hoistedVars + tally i ((nestedNames st t).map Prod.fst) +
      tally i (if st then [] else []) ≤ lifted i st t := by
  have hzero : tally i (if st then [] else []) = 0 := by cases st <;> rfl
  simp only [lifted]
  omega

/-- Most phrases lift only what their parts lift. -/
theorem lifted_of_plain {c : Category} {t : Tree c} (hplain : t.plain = true)
    (hdecl : ∀ kind declarators, (⟨c, t⟩ : Phrase) ≠ ⟨.varDecl, .varDecl kind declarators⟩)
    (st : Bool) : lifted i st t ≤ total (fun p => lifted i st p.2) t.visited := by
  have hnil : tally i [] + tally i ((if st then [] else [] : List (Name × BindingKind)).map Prod.fst) +
      tally i (if st then [] else []) = 0 := by
    cases st <;> rfl
  cases t with
  | varDecl kind declarators => exact absurd rfl (hdecl kind declarators)
  | declHead decl => exact Nat.le_trans (lifted_decl st decl) (Nat.le_add_right _ _)
  | varStmt decl => exact Nat.le_trans (lifted_decl st decl) (Nat.le_add_right _ _)
  | switchCase test inner =>
    show lifted i st inner ≤ lifted i st test + (lifted i st inner + 0)
    omega
  | ifStmt test consequent alternate =>
    have h₁ := lifted_governed (i := i) st consequent
    have h₂ := lifted_governed (i := i) st alternate
    show tally i (_ ++ _) + tally i ((if st then [] else []).map Prod.fst) +
      tally i (if st then [] else _ ++ _) ≤
        lifted i st test + (lifted i st consequent + (lifted i st alternate + 0))
    rw [tally_append, tally_ite_append]
    simp only [blockNames] at h₁ h₂
    omega
  | whileStmt test inner =>
    have h := lifted_governed (i := i) st inner
    exact Nat.le_trans h (Nat.le_trans (Nat.le_add_right _ 0) (Nat.le_add_left _ (lifted i st test)))
  | doWhile test inner =>
    have h := lifted_governed (i := i) st inner
    exact Nat.le_trans h (Nat.le_trans (Nat.le_add_right _ 0) (Nat.le_add_left _ (lifted i st test)))
  | labeled label inner => exact lifted_governed st inner
  | body stmt => exact lifted_governed st stmt
  | sequence inner => exact Nat.le_refl _
  | stmts ss => exact Nat.le_refl _
  | some value => exact Nat.le_refl _
  | cons head tail =>
    have hnames := tally_nestedNames_cons (i := i) st head tail
    show tally i (_ ++ _) + tally i ((nestedNames st (cons head tail)).map Prod.fst) +
      tally i (if st then [] else _ ++ _) ≤ lifted i st head + (lifted i st tail + 0)
    rw [tally_append, tally_ite_append, hnames]
    simp only [lifted, blockNames]
    omega
  | _ =>
    first
    | exact absurd hplain Bool.false_ne_true
    | exact Nat.le_trans (Nat.le_of_eq hnil) (Nat.zero_le _)

/-- Most phrases bind only what their parts bind. -/
theorem bound_of_plain {c : Category} {t : Tree c} (hplain : t.plain = true)
    (hname : ∀ n, (⟨c, t⟩ : Phrase) ≠ ⟨.binder, .nameBinder n⟩)
    (hshort : ∀ n v, (⟨c, t⟩ : Phrase) ≠ ⟨.binderProp, .shortBinder n v⟩) :
    tally i t.boundNames ≤ total (fun p => tally i p.2.boundNames) t.visited := by
  cases t with
  | nameBinder n => exact absurd rfl (hname n)
  | shortBinder n v => exact absurd rfl (hshort n v)
  | arrayBinder elements => exact Nat.le_refl _
  | objectBinder properties => exact Nat.le_refl _
  | restBinder target => exact Nat.le_refl _
  | restProp target => exact Nat.le_refl _
  | varDecl kind declarators => exact Nat.le_refl _
  | some value => exact Nat.le_refl _
  | defaultBinder target value => exact Nat.le_add_right _ _
  | declarator target init => exact Nat.le_add_right _ _
  | keyedBinder key value => exact Nat.le_add_left _ _
  | cons head tail => exact Nat.le_of_eq (tally_append i _ _)
  | _ =>
    first
    | exact absurd hplain Bool.false_ne_true
    | exact Nat.zero_le _

/-- A phrase that is not plain binds nothing. -/
theorem bound_of_not_plain {c : Category} {t : Tree c} (hplain : t.plain = false) :
    tally i t.boundNames = 0 := by
  cases t <;> first | rfl | exact absurd hplain Bool.noConfusion

theorem tally_functionScope {own : List Name} {st : Bool} {params : Tree (.list .binder)}
    {inner : Block} {o : Outline} :
    tally i (functionScope own st params inner o).names =
      tally i own + tally i params.boundNames + liftedTop i st inner + tally i o.names := by
  simp only [functionScope, functionNames, Outline.names, Outline.allDeclared, List.map_append,
    List.map_map, Function.comp_def, List.map_id', tally_append, List.append_nil, liftedTop,
    hoistedNames, blockNames]
  omega

theorem tally_nestedScope {c : Category} {kind : ScopeKind} {st : Bool} {t : Tree c} {o : Outline} :
    tally i (nestedScope kind st t o).names =
      tally i ((nestedNames st t).map Prod.fst) + tally i o.names := by
  simp only [nestedScope, Outline.names, Outline.allDeclared, List.map_nil, List.append_nil,
    tally_append]

theorem tally_namedScope {kind : ScopeKind} {as : BindingKind} {own : List Name} {o : Outline} :
    tally i (namedScope kind as own o).names = tally i own + tally i o.names := by
  simp only [namedScope, Outline.names, Outline.allDeclared, List.map_nil, List.append_nil,
    List.map_map, Function.comp_def, List.map_id', tally_append]

theorem tally_join (os : List Outline) :
    tally i (Outline.join os).names = total (fun o => tally i o.names) os := by
  rw [Outline.names_join, tally, List.map_flatMap, count_flatMap]
  rfl

/-- The scope of a function names what its parameters and its body name. -/
theorem tally_function_le (own : List Name) (st : Bool) {params : Tree (.list .binder)}
    {inner : Block} (hparams : Counted i params) (hinner : Counted i inner) :
    tally i (functionScope own st params inner
      (.join [params.outline st, inner.outline st])).names ≤
      tally i own + occurs i params + occurs i inner := by
  have hp := hparams.bound st
  have hb := hinner.top rfl st
  rw [tally_functionScope, tally_join]
  show _ + (mentions i params st + (mentions i inner st + 0)) ≤ _
  omega

/-- The scope of an arrow that returns an expression names what its parameters and the expression
name. -/
theorem tally_arrow_le (st : Bool) {params : Tree (.list .binder)} {value : Expr}
    (hparams : Counted i params) (hvalue : Counted i value) :
    tally i (functionScope [] st params (.stmts .nil)
      (.join [params.outline st, value.outline st])).names ≤
      tally i [] + occurs i params + occurs i value := by
  have hp := hparams.bound st
  have hv := hvalue.mentions_le st
  have hempty : liftedTop i st (.stmts .nil) = 0 := by cases st <;> rfl
  rw [tally_functionScope, tally_join]
  show _ + (mentions i params st + (mentions i value st + 0)) ≤ _
  omega

/-- A method names what its key, its parameters and its body name. -/
theorem tally_method_le {st : Bool} (st' : Bool) {key : Tree .key} {params : Tree (.list .binder)}
    {inner : Block} (hkey : Counted i key) (hparams : Counted i params) (hinner : Counted i inner) :
    tally i (Outline.join [key.outline st, functionScope [] st' params inner
      (.join [params.outline st', inner.outline st'])]).names ≤
      occurs i key + (occurs i params + occurs i inner) := by
  have hk := hkey.mentions_le st
  have hf := tally_function_le [] st' hparams hinner
  have hzero : tally i [] = 0 := rfl
  rw [tally_join]
  simp only [mentions] at hk
  simp only [total, List.foldr_cons, List.foldr_nil]
  omega

/-- The scope of a nested statement list, with what is lifted out of it, names what the list
names. -/
theorem tally_nested_le {c : Category} (kind : ScopeKind) (st : Bool) {t : Tree c}
    (h : Counted i t) :
    tally i t.hoistedVars + tally i (blockNames st true t) +
      tally i (nestedScope kind st t (t.outline st)).names ≤ occurs i t := by
  have hn := h.nested st
  rw [tally_nestedScope]
  simp only [lifted, mentions] at hn
  omega

theorem tally_finalizer_le (st : Bool) {finalizer : Tree (.option .block)}
    (h : Counted i finalizer) :
    tally i finalizer.hoistedVars + tally i (blockNames st true finalizer) +
      tally i (finallyScope st finalizer (finalizer.outline st)).names ≤ occurs i finalizer := by
  have hn := h.nested st
  cases finalizer with
  | none =>
    simp only [lifted] at hn
    have hzero : ∀ o, tally i (finallyScope st none o).names = 0 := fun _ => rfl
    rw [hzero]
    omega
  | some last =>
    have hscope : tally i (finallyScope st (some last) ((some last).outline st)).names =
        tally i ((nestedNames st (some last)).map Prod.fst) + mentions i (some last) st :=
      tally_nestedScope
    simp only [lifted] at hn
    omega

/-- Loops over the members of something. -/
theorem forEach_le {st : Bool} {left : Tree .forHead} {right : Expr} {inner : Tree .body} {t : Stmt}
    (hocc : occurs i t = 0 + (occurs i left + (occurs i right + (occurs i inner + 0))))
    (hleft : Counted i left) (hright : Counted i right) (hinner : Counted i inner)
    (hlifted : lifted i st t =
      tally i (left.hoistedVars ++ inner.hoistedVars) + 0 + tally i (blockNames st true inner))
    (hout : t.outline st =
      nestedScope .loopHead st left (.join [left.outline st, right.outline st, inner.outline st])) :
    lifted i st t + mentions i t st ≤ occurs i t := by
  have hl := hleft.nested st
  have hr := hright.mentions_le st
  have hb := hinner.nested st
  have hj : tally i (Outline.join [left.outline st, right.outline st, inner.outline st]).names =
      mentions i left st + (mentions i right st + (mentions i inner st + 0)) := tally_join _
  have hm : mentions i t st = tally i ((nestedNames st left).map Prod.fst) + tally i (Outline.join
      [left.outline st, right.outline st, inner.outline st]).names := by
    rw [mentions, hout, tally_nestedScope]
  rw [tally_append] at hlifted
  simp only [lifted] at hl hb hlifted ⊢
  omega

/-- The parts of a function definition. -/
theorem counted_function {isAsync isGenerator : Bool} {name : Tree (.option .name)}
    {params : Tree (.list .binder)} {inner : Block}
    (h : ∀ q ∈ (function isAsync isGenerator name params inner).phrases, Counted i q.2) :
    Counted i params ∧ Counted i inner ∧
      occurs i (function isAsync isGenerator name params inner) =
        0 + (occurs i name + (occurs i params + (occurs i inner + 0))) := by
  have hparts := Each.of_forall (motive := fun _ t => Counted i t) fun p hp =>
    h p (mem_phrases_of_part hp p.2.self_mem_phrases)
  exact ⟨hparts.2.1, hparts.2.2.1, occurs_eq i _⟩

/-- The parts of a class definition. -/
theorem counted_class {name : Tree (.option .name)} {heritage : Tree (.option .expr)}
    {members : Tree (.list .member)}
    (h : ∀ q ∈ (classDef name heritage members).phrases, Counted i q.2) :
    Counted i heritage ∧ Counted i members ∧
      occurs i (classDef name heritage members) =
        0 + (occurs i name + (occurs i heritage + (occurs i members + 0))) := by
  have hparts := Each.of_forall (motive := fun _ t => Counted i t) fun p hp =>
    h p (mem_phrases_of_part hp p.2.self_mem_phrases)
  exact ⟨hparts.2.1, hparts.2.2.1, occurs_eq i _⟩

/-- Phrases that open scopes or refer to identifiers. -/
theorem nested_of_not_plain {c : Category} {t : Tree c} (hplain : t.plain = false)
    (ih : ∀ p ∈ t.parts, ∀ q ∈ p.2.phrases, Counted i q.2) (st : Bool) :
    lifted i st t + mentions i t st ≤ occurs i t := by
  have hparts := Each.of_forall (motive := fun _ t => Counted i t) fun p hp =>
    ih p hp p p.2.self_mem_phrases
  have hocc := occurs_eq i t
  have hnil : tally i [] + tally i ((if st then [] else [] : List (Name × BindingKind)).map Prod.fst) +
      tally i (if st then [] else []) = 0 := by
    cases st <;> rfl
  cases t with
  | identExpr name =>
    have hl : lifted i st (identExpr name) = 0 := hnil
    have hm : mentions i (identExpr name) st = tally i [name] := rfl
    replace hocc : occurs i (identExpr name) = 0 + (occurs i name + 0) := hocc
    have hn := occurs_name i name
    omega
  | shorthand name =>
    have hl : lifted i st (shorthand name) = 0 := hnil
    have hm : mentions i (shorthand name) st = tally i [name] := rfl
    replace hocc : occurs i (shorthand name) = 0 + (occurs i name + 0) := hocc
    have hn := occurs_name i name
    omega
  | functionExpr fn =>
    have hl : lifted i st (functionExpr fn) = 0 := hnil
    replace hocc : occurs i (functionExpr fn) = 0 + (occurs i fn + 0) := hocc
    cases fn with
    | function isAsync isGenerator name params inner =>
      obtain ⟨hp, hb, hfn⟩ := counted_function (ih _ List.mem_cons_self)
      have hname := tally_toOption i name
      have hm : mentions i (functionExpr (function isAsync isGenerator name params inner)) st ≤ _ :=
        tally_function_le name.toOption.toList (st || inner.isStrict) hp hb
      omega
  | arrow isAsync params inner =>
    have hl : lifted i st (arrow isAsync params inner) = 0 := hnil
    replace hocc : occurs i (arrow isAsync params inner) =
      0 + (occurs i params + (occurs i inner + 0)) := hocc
    have hp := hparts.1
    cases inner with
    | exprBody value =>
      have hv : Counted i value := ih _ (List.mem_cons_of_mem _ List.mem_cons_self) ⟨_, value⟩
        (mem_phrases_of_part List.mem_cons_self value.self_mem_phrases)
      have hval : occurs i (exprBody value) = 0 + (occurs i value + 0) := occurs_eq i _
      have hm : mentions i (arrow isAsync params (exprBody value)) st ≤
          tally i [] + occurs i params + occurs i value :=
        tally_arrow_le (st || _) hp hv
      have hzero : tally i [] = 0 := rfl
      omega
    | blockBody inner =>
      have hb : Counted i inner := ih _ (List.mem_cons_of_mem _ List.mem_cons_self) ⟨_, inner⟩
        (mem_phrases_of_part List.mem_cons_self inner.self_mem_phrases)
      have hval : occurs i (blockBody inner) = 0 + (occurs i inner + 0) := occurs_eq i _
      have hm : mentions i (arrow isAsync params (blockBody inner)) st ≤
          tally i [] + occurs i params + occurs i inner :=
        tally_function_le [] (st || inner.isStrict) hp hb
      have hzero : tally i [] = 0 := rfl
      omega
  | classExpr definition =>
    have hl : lifted i st (classExpr definition) = 0 := hnil
    replace hocc : occurs i (classExpr definition) = 0 + (occurs i definition + 0) := hocc
    cases definition with
    | classDef name heritage members =>
      obtain ⟨hh, hmem, hdef⟩ := counted_class (ih _ List.mem_cons_self)
      have hname := tally_toOption i name
      have hh := hh.mentions_le st
      have hmem := hmem.mentions_le true
      have hm : mentions i (classExpr (classDef name heritage members)) st =
          mentions i heritage st + (tally i (namedScope .classBody .classDef
            name.toOption.toList (members.outline true)).names + 0) := tally_join _
      have hs : tally i (namedScope .classBody .classDef name.toOption.toList (members.outline true)).names =
          tally i name.toOption.toList + mentions i members true := tally_namedScope
      omega
  | classStmt definition =>
    replace hocc : occurs i (classStmt definition) = 0 + (occurs i definition + 0) := hocc
    cases definition with
    | classDef name heritage members =>
      obtain ⟨hh, hmem, hdef⟩ := counted_class (ih _ List.mem_cons_self)
      have hname := tally_toOption i name
      have hh := hh.mentions_le st
      have hmem := hmem.mentions_le true
      have hl : lifted i st (classStmt (classDef name heritage members)) =
          tally i name.toOption.toList := by
        cases name <;> cases st <;> exact Nat.zero_add _
      have hm : mentions i (classStmt (classDef name heritage members)) st =
          mentions i heritage st + (tally i (namedScope .classBody .classDef [] (members.outline true)).names + 0) :=
        tally_join _
      have hs : tally i (namedScope .classBody .classDef [] (members.outline true)).names =
          tally i [] + mentions i members true := tally_namedScope
      have hzero : tally i [] = 0 := rfl
      omega
  | functionStmt fn =>
    replace hocc : occurs i (functionStmt fn) = 0 + (occurs i fn + 0) := hocc
    cases fn with
    | function isAsync isGenerator name params inner =>
      obtain ⟨hp, hb, hfn⟩ := counted_function (ih _ List.mem_cons_self)
      have hname := tally_toOption i name
      have hl : lifted i st (functionStmt (function isAsync isGenerator name params inner)) =
          tally i name.toOption.toList := by
        cases name <;> cases st <;> exact Nat.zero_add _
      have hm : mentions i (functionStmt (function isAsync isGenerator name params inner)) st ≤ _ :=
        tally_function_le [] (st || inner.isStrict) hp hb
      have hzero : tally i [] = 0 := rfl
      omega
  | methodProp kind key fn =>
    have hl : lifted i st (methodProp kind key fn) = 0 := hnil
    replace hocc : occurs i (methodProp kind key fn) = 0 + (occurs i key + (occurs i fn + 0)) := hocc
    cases fn with
    | function isAsync isGenerator name params inner =>
      obtain ⟨hp, hb, hfn⟩ := counted_function (ih _ (List.mem_cons_of_mem _ List.mem_cons_self))
      have hm : mentions i (methodProp kind key (function isAsync isGenerator name params inner)) st ≤
          occurs i key + (occurs i params + occurs i inner) :=
        tally_method_le (st || inner.isStrict) hparts.1 hp hb
      omega
  | method kind isStatic key fn =>
    have hl : lifted i st (method kind isStatic key fn) = 0 := hnil
    replace hocc : occurs i (method kind isStatic key fn) =
      0 + (occurs i key + (occurs i fn + 0)) := hocc
    cases fn with
    | function isAsync isGenerator name params inner =>
      obtain ⟨hp, hb, hfn⟩ := counted_function (ih _ (List.mem_cons_of_mem _ List.mem_cons_self))
      have hm : mentions i (method kind isStatic key
          (function isAsync isGenerator name params inner)) st ≤
          occurs i key + (occurs i params + occurs i inner) :=
        tally_method_le (st || inner.isStrict) hparts.1 hp hb
      omega
  | staticBlock inner =>
    have hl : lifted i st (staticBlock inner) = 0 := hnil
    replace hocc : occurs i (staticBlock inner) = 0 + (occurs i inner + 0) := hocc
    have hb := hparts.1.top rfl (st || inner.isStrict)
    have hm : mentions i (staticBlock inner) st = tally i [] + tally i [] +
        liftedTop i (st || inner.isStrict) inner +
          tally i (Outline.join [inner.outline (st || inner.isStrict)]).names := tally_functionScope
    have hj : tally i (Outline.join [inner.outline (st || inner.isStrict)]).names =
        mentions i inner (st || inner.isStrict) + 0 := tally_join _
    have hzero : tally i [] = 0 := rfl
    omega
  | handler param inner =>
    replace hocc : occurs i (handler param inner) =
      0 + (occurs i param + (occurs i inner + 0)) := hocc
    have hp := hparts.1.bound st
    have hb := tally_nested_le .block st hparts.2.1
    have hl : lifted i st (handler param inner) =
        tally i inner.hoistedVars + 0 + tally i (blockNames st true inner) := by
      cases st <;> rfl
    have hm : mentions i (handler param inner) st = tally i param.boundNames + tally i (Outline.join
        [param.outline st, nestedScope .block st inner (inner.outline st)]).names := tally_namedScope
    have hj : tally i (Outline.join [param.outline st,
        nestedScope .block st inner (inner.outline st)]).names =
          mentions i param st +
            (tally i (nestedScope .block st inner (inner.outline st)).names + 0) := tally_join _
    omega
  | blockStmt inner =>
    replace hocc : occurs i (blockStmt inner) = 0 + (occurs i inner + 0) := hocc
    have hb := tally_nested_le .block st hparts.1
    have hl : lifted i st (blockStmt inner) =
        tally i inner.hoistedVars + 0 + tally i (blockNames st true inner) := by
      cases st <;> rfl
    have hm : mentions i (blockStmt inner) st =
        tally i (nestedScope .block st inner (inner.outline st)).names := rfl
    omega
  | switchStmt discriminant cases =>
    replace hocc : occurs i (switchStmt discriminant cases) =
      0 + (occurs i discriminant + (occurs i cases + 0)) := hocc
    have hd := hparts.1.mentions_le st
    have hb := tally_nested_le .block st hparts.2.1
    have hl : lifted i st (switchStmt discriminant cases) =
        tally i cases.hoistedVars + 0 + tally i (blockNames st true cases) := by
      cases st <;> rfl
    have hm : mentions i (switchStmt discriminant cases) st = mentions i discriminant st +
        (tally i (nestedScope .block st cases (cases.outline st)).names + 0) := tally_join _
    omega
  | tryStmt inner caught finalizer =>
    replace hocc : occurs i (tryStmt inner caught finalizer) =
      0 + (occurs i inner + (occurs i caught + (occurs i finalizer + 0))) := hocc
    have hb := tally_nested_le .block st hparts.1
    have hc := hparts.2.1.nested st
    have hf := tally_finalizer_le st hparts.2.2.1
    have hl : lifted i st (tryStmt inner caught finalizer) =
        tally i (inner.hoistedVars ++ caught.hoistedVars ++ finalizer.hoistedVars) + 0 +
          tally i (blockNames st true (tryStmt inner caught finalizer)) := by
      cases st <;> rfl
    have hbf : tally i (blockNames st true (tryStmt inner caught finalizer)) =
        tally i (blockNames st true inner) + tally i (blockNames st true caught) +
          tally i (blockNames st true finalizer) := by
      show tally i (if st then [] else _ ++ _ ++ _) = _
      rw [tally_ite_append, tally_ite_append]
      rfl
    have hm : mentions i (tryStmt inner caught finalizer) st =
        tally i (nestedScope .block st inner (inner.outline st)).names +
          (mentions i caught st + (tally i (finallyScope st finalizer (finalizer.outline st)).names + 0)) := tally_join _
    rw [tally_append, tally_append] at hl
    simp only [lifted] at hc
    omega
  | forStmt init test step inner =>
    replace hocc : occurs i (forStmt init test step inner) =
      0 + (occurs i init + (occurs i test + (occurs i step + (occurs i inner + 0)))) := hocc
    have hhead := hparts.1.nested st
    have htest := hparts.2.1.mentions_le st
    have hstep := hparts.2.2.1.mentions_le st
    have hinner := hparts.2.2.2.1.nested st
    have hl : lifted i st (forStmt init test step inner) =
        tally i (init.hoistedVars ++ inner.hoistedVars) + 0 + tally i (blockNames st true inner) := by
      cases st <;> rfl
    have hm : mentions i (forStmt init test step inner) st =
        tally i ((nestedNames st init).map Prod.fst) + tally i (Outline.join
          [init.outline st, test.outline st, step.outline st, inner.outline st]).names :=
      tally_nestedScope
    have hj : tally i (Outline.join
        [init.outline st, test.outline st, step.outline st, inner.outline st]).names =
          mentions i init st + (mentions i test st + (mentions i step st + (mentions i inner st + 0))) :=
      tally_join _
    rw [tally_append] at hl
    simp only [lifted] at hhead hinner
    omega
  | forIn left right inner =>
    exact forEach_le hocc hparts.1 hparts.2.1 hparts.2.2.1 (by cases st <;> rfl) rfl
  | forOf isAwait left right inner =>
    exact forEach_le hocc hparts.1 hparts.2.1 hparts.2.2.1 (by cases st <;> rfl) rfl
  | exprBody value =>
    have hl : lifted i st (exprBody value) = 0 := hnil
    have hm : mentions i (exprBody value) st = mentions i value st := rfl
    replace hocc : occurs i (exprBody value) = 0 + (occurs i value + 0) := hocc
    have hv := hparts.1.mentions_le st
    omega
  | blockBody inner =>
    have hl : lifted i st (blockBody inner) = 0 := hnil
    have hm : mentions i (blockBody inner) st = mentions i inner st := rfl
    replace hocc : occurs i (blockBody inner) = 0 + (occurs i inner + 0) := hocc
    have hb := hparts.1.mentions_le st
    omega
  | function _ _ _ _ _ => exact Nat.le_trans (Nat.le_of_eq hnil) (Nat.zero_le _)
  | classDef _ _ _ => exact Nat.le_trans (Nat.le_of_eq hnil) (Nat.zero_le _)
  | _ => exact absurd hplain Bool.noConfusion

theorem filter_named {as : BindingKind} (has : as ≠ .function) (ns : List Name) :
    (ns.map (·, as)).filter (·.2 != .function) = ns.map (·, as) := by
  refine List.filter_eq_self.mpr fun d hd => ?_
  obtain ⟨n, -, rfl⟩ := List.mem_map.mp hd
  exact bne_iff_ne.mpr has

/-- Declarations of variables declare no functions. -/
theorem nestedNames_varDecl (st : Bool) (kind : VarKind) (declarators : Tree (.list .declarator)) :
    nestedNames st (varDecl kind declarators) = (varDecl kind declarators).lexicalNames := by
  cases st with
  | true => rfl
  | false =>
    cases kind with
    | var => rfl
    | lexical => exact filter_named (by decide) _
    | constant => exact filter_named (by decide) _

/-- A declaration of variables lifts the names it binds. -/
theorem lifted_varDecl (st : Bool) (kind : VarKind) (declarators : Tree (.list .declarator)) :
    lifted i st (varDecl kind declarators) = tally i declarators.boundNames := by
  have hmap : ∀ as : BindingKind, ((declarators.boundNames.map (·, as)).map Prod.fst) =
      declarators.boundNames := by
    intro as
    simp only [List.map_map, Function.comp_def, List.map_id']
  have hblock : tally i (blockNames st true (varDecl kind declarators)) = 0 := by cases st <;> rfl
  rw [lifted, nestedNames_varDecl, hblock]
  cases kind with
  | var => rfl
  | lexical =>
    show 0 + tally i ((declarators.boundNames.map (·, BindingKind.lexical)).map Prod.fst) + 0 = _
    rw [hmap, Nat.zero_add, Nat.add_zero]
  | constant =>
    show 0 + tally i ((declarators.boundNames.map (·, BindingKind.constant)).map Prod.fst) + 0 = _
    rw [hmap, Nat.zero_add, Nat.add_zero]

/-- At the top of a body a statement lifts what it lifts anywhere, a function its name. -/
theorem top_of_nested {t : Stmt} (hseq : ∀ inner, t ≠ sequence inner) (st : Bool) :
    liftedTop i st t ≤ lifted i st t := by
  cases t with
  | sequence inner => exact absurd rfl (hseq inner)
  | functionStmt fn =>
    cases fn with
    | function isAsync isGenerator name params inner =>
      cases name <;> cases st <;> exact Nat.le_refl _
  | classStmt definition =>
    cases definition with
    | classDef name heritage members => cases name <;> cases st <;> exact Nat.le_refl _
  | varStmt decl =>
    cases decl with
    | varDecl kind declarators =>
      have hnames : nestedNames st (varStmt (varDecl kind declarators)) =
          (varDecl kind declarators).lexicalNames := nestedNames_varDecl st kind declarators
      simp only [lifted, hnames]
      exact Nat.le_refl _
  | _ => cases st <;> exact Nat.le_refl _

theorem nested_step {c : Category} {t : Tree c}
    (ih : ∀ p ∈ t.parts, ∀ q ∈ p.2.phrases, Counted i q.2) (st : Bool) :
    lifted i st t + mentions i t st ≤ occurs i t := by
  cases hplain : t.plain with
  | false => exact nested_of_not_plain hplain ih st
  | true =>
    have hparts := fun p hp => ih p hp p p.2.self_mem_phrases
    by_cases hdecl : ∃ kind declarators,
        (⟨c, t⟩ : Phrase) = ⟨.varDecl, .varDecl kind declarators⟩
    · obtain ⟨kind, declarators, hdecl⟩ := hdecl
      cases hdecl
      have hd : tally i declarators.boundNames + mentions i declarators st ≤ occurs i declarators :=
        (hparts _ List.mem_cons_self).bound st
      have hocc : occurs i (varDecl kind declarators) = 0 + (occurs i declarators + 0) :=
        occurs_eq i _
      have hm : mentions i (varDecl kind declarators) st = mentions i declarators st + 0 :=
        mentions_of_plain rfl i st
      have hl : lifted i st (varDecl kind declarators) = tally i declarators.boundNames :=
        lifted_varDecl st kind declarators
      omega
    · exact le_occurs_of_plain (f := lifted i st) hplain
        (lifted_of_plain hplain (fun kind ds h => hdecl ⟨kind, ds, h⟩) st)
        fun p hp => (hparts p hp).nested st

theorem bound_step {c : Category} {t : Tree c}
    (ih : ∀ p ∈ t.parts, ∀ q ∈ p.2.phrases, Counted i q.2) (st : Bool) :
    tally i t.boundNames + mentions i t st ≤ occurs i t := by
  have hnested := nested_step ih st
  cases hplain : t.plain with
  | false =>
    have hzero := bound_of_not_plain (i := i) hplain
    omega
  | true =>
    have hparts := fun p hp => ih p hp p p.2.self_mem_phrases
    by_cases hname : ∃ n, (⟨c, t⟩ : Phrase) = ⟨.binder, .nameBinder n⟩
    · obtain ⟨n, hname⟩ := hname
      cases hname
      have hocc : occurs i (nameBinder n) = 0 + (occurs i n + 0) := occurs_eq i _
      have hm : mentions i (nameBinder n) st = 0 := by cases n <;> rfl
      have hb : tally i (nameBinder n).boundNames = tally i [n] := rfl
      have hn := occurs_name i n
      omega
    · by_cases hshort : ∃ n v, (⟨c, t⟩ : Phrase) = ⟨.binderProp, .shortBinder n v⟩
      · obtain ⟨n, v, hshort⟩ := hshort
        cases hshort
        have hocc : occurs i (shortBinder n v) = 0 + (occurs i n + (occurs i v + 0)) :=
          occurs_eq i _
        have hm : mentions i (shortBinder n v) st = mentions i n st + (mentions i v st + 0) :=
          mentions_of_plain rfl i st
        have hnil : mentions i n st = 0 := by cases n <;> rfl
        have hb : tally i (shortBinder n v).boundNames = tally i [n] := rfl
        have hn := occurs_name i n
        have hv : mentions i v st ≤ occurs i v :=
          (hparts _ (List.mem_cons_of_mem _ List.mem_cons_self)).mentions_le st
        omega
      · exact le_occurs_of_plain (f := fun t => tally i t.boundNames) hplain
          (bound_of_plain hplain (fun n h => hname ⟨n, h⟩) fun n v h => hshort ⟨n, v, h⟩)
          fun p hp => (hparts p hp).bound st

theorem top_step {c : Category} {t : Tree c}
    (ih : ∀ p ∈ t.parts, ∀ q ∈ p.2.phrases, Counted i q.2) (hc : isStatements c = true) (st : Bool) :
    liftedTop i st t + mentions i t st ≤ occurs i t := by
  have hnested := nested_step ih st
  have hparts := Each.of_forall (motive := fun _ t => Counted i t) fun p hp =>
    ih p hp p p.2.self_mem_phrases
  cases t with
  | stmts ss =>
    have hss := hparts.1.top rfl st
    have hocc : occurs i (stmts ss) = 0 + (occurs i ss + 0) := occurs_eq i _
    have hm : mentions i (stmts ss) st = mentions i ss st + 0 := mentions_of_plain rfl i st
    have hl : liftedTop i st (stmts ss) = liftedTop i st ss := rfl
    omega
  | sequence inner =>
    have hb := hparts.1.top rfl st
    have hocc : occurs i (sequence inner) = 0 + (occurs i inner + 0) := occurs_eq i _
    have hm : mentions i (sequence inner) st = mentions i inner st + 0 := mentions_of_plain rfl i st
    have hl : liftedTop i st (sequence inner) = liftedTop i st inner := rfl
    omega
  | nil => cases st <;> exact Nat.zero_le _
  | @cons c head tail =>
    cases c with
    | stmt =>
      have hh := hparts.1.top rfl st
      have ht := hparts.2.1.top rfl st
      have hocc : occurs i (cons head tail) = 0 + (occurs i head + (occurs i tail + 0)) :=
        occurs_eq i _
      have hm : mentions i (cons head tail) st = mentions i head st + (mentions i tail st + 0) :=
        mentions_of_plain rfl i st
      have hl : liftedTop i st (cons head tail) = liftedTop i st head + liftedTop i st tail := by
        show tally i (_ ++ _) + tally i ((head.lexicalNames ++ tail.lexicalNames).map Prod.fst) +
          tally i (if st then [] else _ ++ _) = _
        rw [tally_append, List.map_append, tally_append, tally_ite_append]
        simp only [liftedTop, blockNames]
        omega
      omega
    | _ => cases hc
  | _ =>
    first
    | exact absurd hc Bool.false_ne_true
    | refine Nat.le_trans (Nat.add_le_add_right (top_of_nested ?_ st) _) hnested
      rintro _ ⟨⟩

/-- Every phrase is counted. -/
theorem counted (i : Option Nat) {c : Category} (t : Tree c) : Counted i t := by
  induction t using induction_on_phrases with
  | step c t ih => exact ⟨bound_step ih, nested_step ih, top_step ih⟩

end

end Tree

end Unminify
