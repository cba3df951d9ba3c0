import Unminify.Proofs.Grammar.Contents
import Unminify.Proofs.Scope.Run
import Unminify.Proofs.Syntax.Reached

/-!
# What phrases leave to the scopes around them

Some identifiers in a phrase are declared by a scope around it, before the phrase is walked: the names
that a pattern binds, the variables and block functions that a body hoists, the names of a statement
list. `due` counts them. Which block functions were hoisted is known by the positions that count as
hoisted when the phrase is walked; the others belong to their lists.

Most phrases leave to the scopes around them what their parts do (`due_of_plain`). A body leaves
behind what its statement list would have declared, which is why declarations must not stand there
(`Orderly`).
-/

namespace Unminify

namespace Tree

/-! ## Identifiers -/

/-- The phrase itself, if it is an identifier. -/
def name? : {c : Category} → Tree c → Option Name
  | .name, t => Option.some t
  | _, _ => Option.none

/-- The identifier that a phrase refers to. -/
def referred? : {c : Category} → Tree c → Option Name
  | _, .identExpr name => Option.some name
  | _, .shorthand name => Option.some name
  | _, _ => Option.none

/-- The identifiers that walks come to. -/
def names {c : Category} (t : Tree c) : List Name := t.reached.filterMap (·.2.name?)

/-- The identifiers among them that refer to something declared elsewhere. -/
def references {c : Category} (t : Tree c) : List Name := t.reached.filterMap (·.2.referred?)

section

variable {c : Category}

theorem filterMap_reached {α : Type} (f : Phrase → Option α) (t : Tree c) :
    t.reached.filterMap f = (f ⟨c, t⟩).toList ++ t.visited.flatMap fun p => p.2.reached.filterMap f := by
  rw [reached_eq, List.filterMap_cons, List.filterMap_flatMap]
  cases f ⟨c, t⟩ <;> rfl

theorem names_eq (t : Tree c) : t.names = t.name?.toList ++ t.visited.flatMap (·.2.names) :=
  filterMap_reached _ t

theorem references_eq (t : Tree c) :
    t.references = t.referred?.toList ++ t.visited.flatMap (·.2.references) :=
  filterMap_reached _ t

theorem names_name (n : Name) : n.names = [n] := by
  rw [names_eq]
  cases n <;> rfl

theorem references_name (n : Name) : n.references = [] := by
  rw [references_eq]
  cases n <;> rfl

theorem names_toOption (n : Tree (.option .name)) : n.names = n.toOption.toList := by
  rw [names_eq]
  cases n with
  | none => rfl
  | some n => exact (List.append_nil _).trans n.names_name

theorem references_toOption (n : Tree (.option .name)) : n.references = [] := by
  rw [references_eq]
  cases n with
  | none => rfl
  | some n => exact (List.append_nil _).trans n.references_name

theorem names_one {d : Category} {t : Tree c} {p : Tree d} (hself : t.name? = Option.none)
    (hvisited : t.visited = [⟨d, p⟩]) : t.names = p.names := by
  rw [names_eq, hself, hvisited]
  exact List.append_nil _

theorem references_one {d : Category} {t : Tree c} {p : Tree d} (hself : t.referred? = Option.none)
    (hvisited : t.visited = [⟨d, p⟩]) : t.references = p.references := by
  rw [references_eq, hself, hvisited]
  exact List.append_nil _

theorem names_two {d e : Category} {t : Tree c} {p : Tree d} {q : Tree e}
    (hself : t.name? = Option.none) (hvisited : t.visited = [⟨d, p⟩, ⟨e, q⟩]) :
    t.names = p.names ++ q.names := by
  rw [names_eq, hself, hvisited]
  exact congrArg (p.names ++ ·) (List.append_nil _)

theorem references_two {d e : Category} {t : Tree c} {p : Tree d} {q : Tree e}
    (hself : t.referred? = Option.none) (hvisited : t.visited = [⟨d, p⟩, ⟨e, q⟩]) :
    t.references = p.references ++ q.references := by
  rw [references_eq, hself, hvisited]
  exact congrArg (p.references ++ ·) (List.append_nil _)

theorem names_function (isAsync isGenerator : Bool) (name : Tree (.option .name))
    (params : Tree (.list .binder)) (inner : Block) :
    (function isAsync isGenerator name params inner).names =
      name.toOption.toList ++ (params.names ++ inner.names) := by
  rw [names_eq]
  show name.names ++ (params.names ++ (inner.names ++ [])) = _
  rw [names_toOption, List.append_nil]

theorem references_function (isAsync isGenerator : Bool) (name : Tree (.option .name))
    (params : Tree (.list .binder)) (inner : Block) :
    (function isAsync isGenerator name params inner).references =
      params.references ++ inner.references := by
  rw [references_eq]
  show name.references ++ (params.references ++ (inner.references ++ [])) = _
  rw [references_toOption, List.nil_append, List.append_nil]

theorem names_classDef (name : Tree (.option .name)) (heritage : Tree (.option .expr))
    (members : Tree (.list .member)) :
    (classDef name heritage members).names =
      name.toOption.toList ++ (heritage.names ++ members.names) := by
  rw [names_eq]
  show name.names ++ (heritage.names ++ (members.names ++ [])) = _
  rw [names_toOption, List.append_nil]

theorem references_classDef (name : Tree (.option .name)) (heritage : Tree (.option .expr))
    (members : Tree (.list .member)) :
    (classDef name heritage members).references = heritage.references ++ members.references := by
  rw [references_eq]
  show name.references ++ (heritage.references ++ (members.references ++ [])) = _
  rw [references_toOption, List.nil_append, List.append_nil]

theorem countP_flatMap_total {α : Type} (φ : Name → Bool) (f : α → List Name) (xs : List α) :
    (xs.flatMap f).countP φ = total (fun x => (f x).countP φ) xs := by
  induction xs with
  | nil => rfl
  | cons x xs ih =>
    rw [List.flatMap_cons, List.countP_append, ih]
    rfl

/-- The identifiers of a phrase that is not one itself are those of its visited parts. -/
theorem countP_names {t : Tree c} (h : t.name? = Option.none) (φ : Name → Bool) :
    t.names.countP φ = total (fun p => p.2.names.countP φ) t.visited := by
  rw [names_eq, h]
  exact countP_flatMap_total φ _ _

/-- Identifiers that are reached stand in the tree. -/
theorem positions_of_names (t : Tree c) : (t.names.map nameId?).Sublist t.positions := by
  induction t using induction_on_parts with
  | step c t ih =>
    rw [names_eq, positions_eq, List.map_append, List.map_flatMap]
    refine List.Sublist.append ?_ ?_
    · cases t <;> exact List.Sublist.refl _
    · rw [parts_eq, List.flatMap_append]
      refine List.Sublist.trans ?_ (List.sublist_append_left _ _)
      exact List.Sublist.flatMap_right _ fun p hp => ih p (mem_parts_of_visited hp)

end

/-! ## Declarations in statement lists -/

/-- Whether there is a function, a class or a declaration of `let` or `const` among the statements that
a phrase stands for. -/
def holdsDeclaration : {c : Category} → Tree c → Bool
  | _, .functionStmt _ => true
  | _, .classStmt _ => true
  | _, .varStmt decl => holdsDeclaration decl
  | _, .varDecl kind _ => kind != .var
  | _, .sequence inner => holdsDeclaration inner
  | _, .stmts items => holdsDeclaration items
  | _, .cons head tail => holdsDeclaration head || holdsDeclaration tail
  | _, _ => false

/-- Whether a declaration is governed by an `if`, a loop or a label, instead of being a member of a
statement list. A body may have comments around its statement, and then is a sequence. -/
def governsDeclaration : {c : Category} → Tree c → Bool
  | _, .body stmt => stmt.holdsDeclaration
  | _, _ => false

/-- Functions, classes and declarations of `let` and `const` are members of statement lists or stand in
the heads of loops. -/
def Listed {c : Category} (t : Tree c) : Prop := t.Everywhere fun p => p.2.governsDeclaration = false

/-- Statements without declarations have no names that belong to their list. -/
theorem lexicalNames_of_not_holds {c : Category} (hc : isStatements c = true) {t : Tree c}
    (h : t.holdsDeclaration = false) : t.lexicalNames = [] := by
  induction t with
  | functionStmt fn _ => exact absurd h Bool.noConfusion
  | classStmt definition _ => exact absurd h Bool.noConfusion
  | varStmt decl _ =>
    cases decl with
    | varDecl kind declarators =>
      cases kind with
      | var => rfl
      | lexical => exact absurd h Bool.noConfusion
      | constant => exact absurd h Bool.noConfusion
  | sequence inner ih => exact ih rfl h
  | stmts ss ih => exact ih rfl h
  | @cons d head tail ih ih' =>
    cases d with
    | stmt =>
      obtain ⟨hhead, htail⟩ := Bool.or_eq_false_iff.mp h
      show head.lexicalNames ++ tail.lexicalNames = []
      rw [ih rfl hhead, ih' rfl htail]
      rfl
    | _ => exact absurd hc Bool.false_ne_true
  | _ => first | rfl | exact absurd hc Bool.false_ne_true

/-- What is known of the phrases of a program. -/
structure Orderly {c : Category} (t : Tree c) : Prop where
  positioned : t.Positioned
  sourced : t.Sourced
  listed : t.Listed

theorem positions_part {c : Category} {t : Tree c} {p : Phrase} (hp : p ∈ t.parts) :
    p.2.positions.Sublist t.positions := by
  rw [positions_eq t]
  refine List.Sublist.trans ?_ (List.sublist_append_right _ _)
  obtain ⟨before, after, hparts⟩ := List.append_of_mem hp
  rw [hparts, List.flatMap_append, List.flatMap_cons]
  exact (List.sublist_append_left _ _).trans (List.sublist_append_right _ _)

theorem Orderly.part {c : Category} {t : Tree c} (h : t.Orderly) {p : Phrase} (hp : p ∈ t.parts) :
    p.2.Orderly where
  positioned :=
    { placed := fun hnone => h.positioned.placed ((positions_part hp).subset hnone)
      distinct := h.positioned.distinct.sublist (positions_part hp) }
  sourced := h.sourced.part hp
  listed := h.listed.part hp

end Tree

/-! ## Names that belong to scopes outside -/

namespace Category

/-- Whether phrases of a category bind names for others to declare. -/
def binds : Category → Bool
  | binder | binderProp | declarator => true
  | list c => c.binds
  | option c => c.binds
  | _ => false

/-- Whether phrases of a category leave nothing to the scopes around them. -/
def silent : Category → Bool
  | name | expr | key | property | function | arrowBody | classDef | member => true
  | list c => c.silent
  | option c => c.silent
  | _ => false

/-- Whether phrases of a category are walked by themselves. Names are walked with what declares them or
refers to them, and definitions with the phrases that they define. -/
def alone : Category → Bool
  | name | function | arrowBody | classDef => false
  | list c => c.alone
  | option c => c.alone
  | _ => true

end Category

namespace Scope.Analysis

/-- Whether the position of an identifier counts as hoisted. -/
def isHoisted (hoisted : Std.TreeSet Nat) (n : Name) : Bool := n.nameId?.any hoisted.contains

/-- How many of some names belong to the function around a phrase. -/
def bodyDue (φ : Name → Bool) (hoisted : Std.TreeSet Nat) {c : Category} (t : Tree c) : Nat :=
  t.hoistedVars.countP φ + ((t.blockFunctions true).filter (isHoisted hoisted)).countP φ

/-- How many of some names belong to the statement list or the loop head that a phrase is part of. -/
def listDue (φ : Name → Bool) (hoisted : Std.TreeSet Nat) {c : Category} (t : Tree c) : Nat :=
  ((t.lexicalNames.filter (!skipped hoisted ·)).map Prod.fst).countP φ

/-- How many of some names are declared by the scopes around a phrase. -/
def due (φ : Name → Bool) (hoisted : Std.TreeSet Nat) {c : Category} (t : Tree c) : Nat :=
  if c.binds then t.boundNames.countP φ else bodyDue φ hoisted t + listDue φ hoisted t

section

open Tree

variable {φ : Name → Bool} {hoisted : Std.TreeSet Nat}

theorem binds_of_silent {c : Category} (hc : c.silent = true) : c.binds = false := by
  induction c with
  | list c ih => exact ih hc
  | option c ih => exact ih hc
  | _ => first | rfl | exact absurd hc Bool.false_ne_true

theorem quiet_of_silent {c : Category} (hc : c.silent = true) : c.quiet = true := by
  induction c with
  | list c ih => exact ih hc
  | option c ih => exact ih hc
  | _ => first | rfl | exact absurd hc Bool.false_ne_true

theorem hoistedVars_of_silent {c : Category} (hc : c.silent = true) (t : Tree c) :
    t.hoistedVars = [] := by
  induction t with
  | cons head tail ih ih' =>
    show head.hoistedVars ++ tail.hoistedVars = []
    rw [ih hc, ih' hc]
    rfl
  | some value ih => exact ih hc
  | _ => first | rfl | exact absurd hc Bool.false_ne_true

theorem lexicalNames_of_silent {c : Category} (hc : c.silent = true) (t : Tree c) :
    t.lexicalNames = [] := by
  induction t with
  | cons head tail ih ih' =>
    show head.lexicalNames ++ tail.lexicalNames = []
    rw [ih hc, ih' hc]
    rfl
  | some value ih => exact ih hc
  | _ => first | rfl | exact absurd hc Bool.false_ne_true

theorem due_of_silent {c : Category} (hc : c.silent = true) (t : Tree c) : due φ hoisted t = 0 := by
  rw [due, binds_of_silent hc, bodyDue, listDue, hoistedVars_of_silent hc, lexicalNames_of_silent hc,
    blockFunctions_of_quiet (quiet_of_silent hc)]
  rfl

theorem due_of_binds {c : Category} (hc : c.binds = true) (t : Tree c) :
    due φ hoisted t = t.boundNames.countP φ := if_pos hc

theorem due_of_not_binds {c : Category} (hc : c.binds = false) (t : Tree c) :
    due φ hoisted t = bodyDue φ hoisted t + listDue φ hoisted t :=
  if_neg (Bool.eq_false_iff.mp hc)

/-- Variables and block functions of two phrases, counted together. -/
theorem countP_bodies {c d : Category} {t : Tree c} {u : Tree d} :
    (t.hoistedVars ++ u.hoistedVars).countP φ +
        ((t.blockFunctions true ++ u.blockFunctions true).filter (isHoisted hoisted)).countP φ =
      bodyDue φ hoisted t + bodyDue φ hoisted u := by
  rw [List.filter_append, List.countP_append, List.countP_append, bodyDue, bodyDue]
  omega

theorem bodyDue_cons {c : Category} (head : Tree c) (tail : Tree (.list c)) :
    bodyDue φ hoisted (cons head tail) = bodyDue φ hoisted head + bodyDue φ hoisted tail :=
  countP_bodies

theorem listDue_cons {c : Category} (head : Tree c) (tail : Tree (.list c)) :
    listDue φ hoisted (cons head tail) = listDue φ hoisted head + listDue φ hoisted tail := by
  show (((head.lexicalNames ++ tail.lexicalNames).filter _).map Prod.fst).countP φ = _
  rw [List.filter_append, List.map_append, List.countP_append]
  rfl

theorem due_cons {c : Category} (head : Tree c) (tail : Tree (.list c)) :
    due φ hoisted (cons head tail) = due φ hoisted head + due φ hoisted tail := by
  cases hc : c.binds with
  | true =>
    have hlist : (Category.list c).binds = true := hc
    rw [due_of_binds hlist, due_of_binds hc, due_of_binds hlist]
    exact List.countP_append
  | false =>
    have hlist : (Category.list c).binds = false := hc
    rw [due_of_not_binds hlist, due_of_not_binds hc, due_of_not_binds hlist, bodyDue_cons,
      listDue_cons]
    omega

/-- A body leaves its variables and block functions to the function around it, and declarations do not
stand in it. -/
theorem due_body {s : Stmt} (h : (body s).governsDeclaration = false) :
    due φ hoisted (body s) = due φ hoisted s := by
  have hnil : s.lexicalNames = [] := lexicalNames_of_not_holds rfl h
  rw [due_of_not_binds rfl, due_of_not_binds rfl, listDue, listDue, hnil]
  rfl

/-- What is governed by a statement leaves nothing to the list around that. -/
theorem due_governed (t : Tree .body) : due φ hoisted t = bodyDue φ hoisted t := by
  cases t
  rfl

theorem due_governed_option (t : Tree (.option .body)) : due φ hoisted t = bodyDue φ hoisted t := by
  cases t with
  | none => rfl
  | some t => exact due_governed t

/-- Only functions may have been declared before their list is entered. -/
theorem filter_skipped_of_ne {as : BindingKind} (has : as ≠ .function) (ns : List Name) :
    ((ns.map (·, as)).filter (!skipped hoisted ·)).map Prod.fst = ns := by
  rw [List.filter_eq_self.mpr, List.map_map]
  · exact List.map_id _
  · intro d hd
    obtain ⟨n, -, rfl⟩ := List.mem_map.mp hd
    simp [skipped, has]

/-- A declaration of variables leaves the names it binds, either to the function around it or to the
list that it is part of. -/
theorem due_varDecl (kind : VarKind) (declarators : Tree (.list .declarator)) :
    due φ hoisted (varDecl kind declarators) = due φ hoisted declarators := by
  rw [due_of_not_binds rfl, due_of_binds (c := .list .declarator) rfl]
  cases kind with
  | var => rfl
  | lexical =>
    show 0 + listDue φ hoisted (varDecl .lexical declarators) = _
    rw [Nat.zero_add, listDue]
    exact congrArg (List.countP φ) (filter_skipped_of_ne (by decide) _)
  | constant =>
    show 0 + listDue φ hoisted (varDecl .constant declarators) = _
    rw [Nat.zero_add, listDue]
    exact congrArg (List.countP φ) (filter_skipped_of_ne (by decide) _)

theorem total_eq_zero {α : Type} {f : α → Nat} {xs : List α} (h : ∀ x ∈ xs, f x = 0) :
    total f xs = 0 := by
  induction xs with
  | nil => rfl
  | cons x xs ih =>
    show f x + total f xs = 0
    rw [h x List.mem_cons_self, ih fun y hy => h y (List.mem_cons_of_mem _ hy)]

theorem silent_visited {c : Category} {t : Tree c} (hplain : t.plain = true) (hc : c.silent = true) :
    ∀ p ∈ t.visited, p.1.silent = true := by
  refine Each.of_mem (motive := fun c _ => c.silent = true) ?_
  cases t
  case access computed _ _ _ => cases computed <;> exact ⟨rfl, by trivial⟩
  case cons => exact ⟨hc, hc, trivial⟩
  case some => exact ⟨hc, trivial⟩
  all_goals first
    | exact absurd hplain Bool.false_ne_true
    | exact absurd hc Bool.false_ne_true
    | exact trivial
    | exact ⟨rfl, trivial⟩
    | exact ⟨rfl, rfl, trivial⟩
    | exact ⟨rfl, rfl, rfl, trivial⟩

/-- Most phrases leave to the scopes around them what their parts do. -/
theorem due_of_plain {c : Category} {t : Tree c} (hplain : t.plain = true)
    (hlisted : t.governsDeclaration = false)
    (hname : ∀ n, (⟨c, t⟩ : Phrase) ≠ ⟨.binder, .nameBinder n⟩)
    (hshort : ∀ n v, (⟨c, t⟩ : Phrase) ≠ ⟨.binderProp, .shortBinder n v⟩) :
    due φ hoisted t = total (fun p => due φ hoisted p.2) t.visited := by
  cases hsilent : c.silent with
  | true =>
    rw [due_of_silent hsilent, total_eq_zero]
    exact fun p hp => due_of_silent (silent_visited hplain hsilent p hp) p.2
  | false =>
    have hexpr : ∀ e : Expr, due φ hoisted e = 0 := due_of_silent rfl
    have hoption : ∀ e : Tree (.option .expr), due φ hoisted e = 0 := due_of_silent rfl
    have hkey : ∀ k : Tree .key, due φ hoisted k = 0 := due_of_silent rfl
    cases t with
    | nameBinder n => exact absurd rfl (hname n)
    | shortBinder n v => exact absurd rfl (hshort n v)
    | body s => exact (due_body hlisted).trans (Nat.add_zero _).symm
    | varDecl kind declarators => exact (due_varDecl kind declarators).trans (Nat.add_zero _).symm
    | cons head tail => exact (due_cons head tail).trans (congrArg _ (Nat.add_zero _).symm)
    | defaultBinder target value =>
      show due φ hoisted target = due φ hoisted target + (due φ hoisted value + 0)
      rw [hexpr]
      rfl
    | declarator target init =>
      show due φ hoisted target = due φ hoisted target + (due φ hoisted init + 0)
      rw [hoption]
      rfl
    | keyedBinder key value =>
      show due φ hoisted value = due φ hoisted key + (due φ hoisted value + 0)
      rw [hkey, Nat.zero_add, Nat.add_zero]
    | declHead decl => cases decl; rfl
    | varStmt decl => cases decl; rfl
    | exprHead e => exact (congrArg (· + 0) (hexpr e)).symm
    | exprStmt e => exact (congrArg (· + 0) (hexpr e)).symm
    | throwStmt e => exact (congrArg (· + 0) (hexpr e)).symm
    | returnStmt e => exact (congrArg (· + 0) (hoption e)).symm
    | switchCase test inner =>
      show due φ hoisted inner = due φ hoisted test + (due φ hoisted inner + 0)
      rw [hoption, Nat.zero_add, Nat.add_zero]
    | ifStmt test consequent alternate =>
      show bodyDue φ hoisted (ifStmt test consequent alternate) + 0 =
        due φ hoisted test + (due φ hoisted consequent + (due φ hoisted alternate + 0))
      rw [hexpr, due_governed, due_governed_option, Nat.zero_add]
      exact countP_bodies
    | whileStmt test inner =>
      show bodyDue φ hoisted inner + 0 = due φ hoisted test + (due φ hoisted inner + 0)
      rw [hexpr, due_governed, Nat.zero_add]
    | doWhile test inner =>
      show bodyDue φ hoisted inner + 0 = due φ hoisted test + (due φ hoisted inner + 0)
      rw [hexpr, due_governed, Nat.zero_add]
    | labeled label inner => exact congrArg (· + 0) (due_governed inner).symm
    | nil => exact ite_self 0
    | none => exact ite_self 0
    | _ =>
      first
      | exact absurd hplain Bool.false_ne_true
      | exact absurd hsilent Bool.noConfusion
      | rfl

end

end Scope.Analysis

end Unminify
