import Unminify.Syntax.Same
import Unminify.Syntax.Walk

/-!
# Trees as forms with parts

A tree is a form, some scalars, and the phrases directly inside it, its **parts**. This module reads
every tree that way, so that a law about all trees is one step over the parts of a phrase and not a
case for each form.

* `induction_on_parts` is the one induction: what holds of a phrase as soon as it holds of its parts
  holds of every tree.
* `agree_eq` reads a comparison: the forms agree, and then the parts pair by pair. `descend_eq` reads
  a walk: the visited parts in order, and then the phrase rebuilt from the results.
* `phrases` lists the phrases anywhere in a tree. Conditions on whole trees are conditions on it.

The property of a dot access is a part, which comparisons look at, but it is not visited by walks.
-/

namespace Unminify

/-- A phrase of any category. -/
abbrev Phrase := (c : Category) × Tree c

/-- What a form holds besides phrases. -/
inductive Scalar
  /-- The position of an identifier, which comparisons ignore. -/
  | position (id : Option Nat)
  | text (s : String)
  | texts (ss : List String)
  | label (s : Option String)
  | flag (b : Bool)
  | index (n : Nat)
  | number (x : Binary64)
  | literal (l : Literal)
  | unaryOp (op : UnaryOp)
  | updateOp (op : UpdateOp)
  | binaryOp (op : BinaryOp)
  | assignOp (op : AssignOp)
  | methodKind (k : MethodKind)
  | varKind (k : VarKind)
deriving DecidableEq

/-- Equality of scalars as comparisons see it: positions do not count, numbers are compared by
value. -/
def Scalar.same : Scalar → Scalar → Bool
  | position _, position _ => true
  | text s, text t => s == t
  | texts ss, texts ts => ss == ts
  | label s, label t => s == t
  | flag a, flag b => a == b
  | index i, index j => i == j
  | number x, number y => x.equal y
  | literal a, literal b => a.same b
  | unaryOp a, unaryOp b => a == b
  | updateOp a, updateOp b => a == b
  | binaryOp a, binaryOp b => a == b
  | assignOp a, assignOp b => a == b
  | methodKind a, methodKind b => a == b
  | varKind a, varKind b => a == b
  | _, _ => false

/-- Scalars compared one by one. -/
def sameScalars : List Scalar → List Scalar → Bool
  | [], [] => true
  | [a], [b] => a.same b
  | a :: as, b :: bs => a.same b && sameScalars as bs
  | _, _ => false

namespace Tree

/-! ## Parts -/

/-- The phrases directly inside a phrase, in the order of `Tree`. -/
def parts : {c : Category} → Tree c → List Phrase
  | _, .identExpr name => [⟨_, name⟩]
  | _, .template _ substitutions => [⟨_, substitutions⟩]
  | _, .tagged _ tag substitutions => [⟨_, tag⟩, ⟨_, substitutions⟩]
  | _, .array elements => [⟨_, elements⟩]
  | _, .object properties => [⟨_, properties⟩]
  | _, .functionExpr fn => [⟨_, fn⟩]
  | _, .arrow _ params inner => [⟨_, params⟩, ⟨_, inner⟩]
  | _, .classExpr definition => [⟨_, definition⟩]
  | _, .unary _ arg => [⟨_, arg⟩]
  | _, .update _ _ arg => [⟨_, arg⟩]
  | _, .binary _ left right => [⟨_, left⟩, ⟨_, right⟩]
  | _, .assign _ target value => [⟨_, target⟩, ⟨_, value⟩]
  | _, .conditional test consequent alternate => [⟨_, test⟩, ⟨_, consequent⟩, ⟨_, alternate⟩]
  | _, .call _ callee args => [⟨_, callee⟩, ⟨_, args⟩]
  | _, .new callee args => [⟨_, callee⟩, ⟨_, args⟩]
  | _, .access _ _ target prop => [⟨_, target⟩, ⟨_, prop⟩]
  | _, .comma parts => [⟨_, parts⟩]
  | _, .spread arg => [⟨_, arg⟩]
  | _, .await arg => [⟨_, arg⟩]
  | _, .yield _ arg => [⟨_, arg⟩]
  | _, .nameBinder name => [⟨_, name⟩]
  | _, .arrayBinder elements => [⟨_, elements⟩]
  | _, .objectBinder properties => [⟨_, properties⟩]
  | _, .defaultBinder target value => [⟨_, target⟩, ⟨_, value⟩]
  | _, .restBinder target => [⟨_, target⟩]
  | _, .keyedBinder key value => [⟨_, key⟩, ⟨_, value⟩]
  | _, .shortBinder name value => [⟨_, name⟩, ⟨_, value⟩]
  | _, .restProp target => [⟨_, target⟩]
  | _, .computedKey expr => [⟨_, expr⟩]
  | _, .keyed key value => [⟨_, key⟩, ⟨_, value⟩]
  | _, .shorthand name => [⟨_, name⟩]
  | _, .methodProp _ key fn => [⟨_, key⟩, ⟨_, fn⟩]
  | _, .spreadProp arg => [⟨_, arg⟩]
  | _, .function _ _ name params inner => [⟨_, name⟩, ⟨_, params⟩, ⟨_, inner⟩]
  | _, .exprBody value => [⟨_, value⟩]
  | _, .blockBody inner => [⟨_, inner⟩]
  | _, .classDef name heritage members => [⟨_, name⟩, ⟨_, heritage⟩, ⟨_, members⟩]
  | _, .method _ _ key fn => [⟨_, key⟩, ⟨_, fn⟩]
  | _, .field _ key value => [⟨_, key⟩, ⟨_, value⟩]
  | _, .staticBlock inner => [⟨_, inner⟩]
  | _, .varDecl _ declarators => [⟨_, declarators⟩]
  | _, .declarator target init => [⟨_, target⟩, ⟨_, init⟩]
  | _, .declHead decl => [⟨_, decl⟩]
  | _, .exprHead expr => [⟨_, expr⟩]
  | _, .switchCase test inner => [⟨_, test⟩, ⟨_, inner⟩]
  | _, .handler param inner => [⟨_, param⟩, ⟨_, inner⟩]
  | _, .exprStmt expr => [⟨_, expr⟩]
  | _, .varStmt decl => [⟨_, decl⟩]
  | _, .functionStmt fn => [⟨_, fn⟩]
  | _, .classStmt definition => [⟨_, definition⟩]
  | _, .blockStmt inner => [⟨_, inner⟩]
  | _, .ifStmt test consequent alternate => [⟨_, test⟩, ⟨_, consequent⟩, ⟨_, alternate⟩]
  | _, .forStmt init test step inner => [⟨_, init⟩, ⟨_, test⟩, ⟨_, step⟩, ⟨_, inner⟩]
  | _, .forIn left right inner => [⟨_, left⟩, ⟨_, right⟩, ⟨_, inner⟩]
  | _, .forOf _ left right inner => [⟨_, left⟩, ⟨_, right⟩, ⟨_, inner⟩]
  | _, .whileStmt test inner => [⟨_, test⟩, ⟨_, inner⟩]
  | _, .doWhile test inner => [⟨_, test⟩, ⟨_, inner⟩]
  | _, .returnStmt value => [⟨_, value⟩]
  | _, .throwStmt value => [⟨_, value⟩]
  | _, .labeled _ inner => [⟨_, inner⟩]
  | _, .switchStmt discriminant cases => [⟨_, discriminant⟩, ⟨_, cases⟩]
  | _, .tryStmt block caught finalizer => [⟨_, block⟩, ⟨_, caught⟩, ⟨_, finalizer⟩]
  | _, .sequence inner => [⟨_, inner⟩]
  | _, .stmts items => [⟨_, items⟩]
  | _, .body stmt => [⟨_, stmt⟩]
  | _, .cons head tail => [⟨_, head⟩, ⟨_, tail⟩]
  | _, .some value => [⟨_, value⟩]
  | _, _ => []

/-- What the form of a phrase holds besides its parts. -/
def scalars : {c : Category} → Tree c → List Scalar
  | _, .ident text id => [.position id, .text text]
  | _, .nameHole index => [.index index]
  | _, .literal value => [.literal value]
  | _, .template chunks _ => [.texts chunks]
  | _, .tagged chunks _ _ => [.texts chunks]
  | _, .arrow isAsync _ _ => [.flag isAsync]
  | _, .unary op _ => [.unaryOp op]
  | _, .update op before _ => [.updateOp op, .flag before]
  | _, .binary op _ _ => [.binaryOp op]
  | _, .assign op _ _ => [.assignOp op]
  | _, .call optional _ _ => [.flag optional]
  | _, .access computed optional _ _ => [.flag computed, .flag optional]
  | _, .yield delegate _ => [.flag delegate]
  | _, .exprHole index orDeclaration => [.index index, .flag orDeclaration]
  | _, .nameKey text => [.text text]
  | _, .stringKey text => [.text text]
  | _, .numberKey value => [.number value]
  | _, .methodProp kind _ _ => [.methodKind kind]
  | _, .function isAsync isGenerator _ _ _ => [.flag isAsync, .flag isGenerator]
  | _, .method kind isStatic _ _ => [.methodKind kind, .flag isStatic]
  | _, .field isStatic _ _ => [.flag isStatic]
  | _, .varDecl kind _ => [.varKind kind]
  | _, .forOf isAwait _ _ _ => [.flag isAwait]
  | _, .breakStmt label => [.label label]
  | _, .continueStmt label => [.label label]
  | _, .labeled label _ => [.text label]
  | _, .comment text => [.text text]
  | _, .stmtHole index multiLine => [.index index, .flag multiLine]
  | _, _ => []

/-- All phrases of a tree, from the outside in, the tree itself first. -/
def phrases : {c : Category} → Tree c → List Phrase
  | _, t@(.identExpr name) => ⟨_, t⟩ :: [name.phrases].flatten
  | _, t@(.template _ substitutions) => ⟨_, t⟩ :: [substitutions.phrases].flatten
  | _, t@(.tagged _ tag substitutions) => ⟨_, t⟩ :: [tag.phrases, substitutions.phrases].flatten
  | _, t@(.array elements) => ⟨_, t⟩ :: [elements.phrases].flatten
  | _, t@(.object properties) => ⟨_, t⟩ :: [properties.phrases].flatten
  | _, t@(.functionExpr fn) => ⟨_, t⟩ :: [fn.phrases].flatten
  | _, t@(.arrow _ params inner) => ⟨_, t⟩ :: [params.phrases, inner.phrases].flatten
  | _, t@(.classExpr definition) => ⟨_, t⟩ :: [definition.phrases].flatten
  | _, t@(.unary _ arg) => ⟨_, t⟩ :: [arg.phrases].flatten
  | _, t@(.update _ _ arg) => ⟨_, t⟩ :: [arg.phrases].flatten
  | _, t@(.binary _ left right) => ⟨_, t⟩ :: [left.phrases, right.phrases].flatten
  | _, t@(.assign _ target value) => ⟨_, t⟩ :: [target.phrases, value.phrases].flatten
  | _, t@(.conditional test consequent alternate) =>
    ⟨_, t⟩ :: [test.phrases, consequent.phrases, alternate.phrases].flatten
  | _, t@(.call _ callee args) => ⟨_, t⟩ :: [callee.phrases, args.phrases].flatten
  | _, t@(.new callee args) => ⟨_, t⟩ :: [callee.phrases, args.phrases].flatten
  | _, t@(.access _ _ target prop) => ⟨_, t⟩ :: [target.phrases, prop.phrases].flatten
  | _, t@(.comma parts) => ⟨_, t⟩ :: [parts.phrases].flatten
  | _, t@(.spread arg) => ⟨_, t⟩ :: [arg.phrases].flatten
  | _, t@(.await arg) => ⟨_, t⟩ :: [arg.phrases].flatten
  | _, t@(.yield _ arg) => ⟨_, t⟩ :: [arg.phrases].flatten
  | _, t@(.nameBinder name) => ⟨_, t⟩ :: [name.phrases].flatten
  | _, t@(.arrayBinder elements) => ⟨_, t⟩ :: [elements.phrases].flatten
  | _, t@(.objectBinder properties) => ⟨_, t⟩ :: [properties.phrases].flatten
  | _, t@(.defaultBinder target value) => ⟨_, t⟩ :: [target.phrases, value.phrases].flatten
  | _, t@(.restBinder target) => ⟨_, t⟩ :: [target.phrases].flatten
  | _, t@(.keyedBinder key value) => ⟨_, t⟩ :: [key.phrases, value.phrases].flatten
  | _, t@(.shortBinder name value) => ⟨_, t⟩ :: [name.phrases, value.phrases].flatten
  | _, t@(.restProp target) => ⟨_, t⟩ :: [target.phrases].flatten
  | _, t@(.computedKey expr) => ⟨_, t⟩ :: [expr.phrases].flatten
  | _, t@(.keyed key value) => ⟨_, t⟩ :: [key.phrases, value.phrases].flatten
  | _, t@(.shorthand name) => ⟨_, t⟩ :: [name.phrases].flatten
  | _, t@(.methodProp _ key fn) => ⟨_, t⟩ :: [key.phrases, fn.phrases].flatten
  | _, t@(.spreadProp arg) => ⟨_, t⟩ :: [arg.phrases].flatten
  | _, t@(.function _ _ name params inner) =>
    ⟨_, t⟩ :: [name.phrases, params.phrases, inner.phrases].flatten
  | _, t@(.exprBody value) => ⟨_, t⟩ :: [value.phrases].flatten
  | _, t@(.blockBody inner) => ⟨_, t⟩ :: [inner.phrases].flatten
  | _, t@(.classDef name heritage members) =>
    ⟨_, t⟩ :: [name.phrases, heritage.phrases, members.phrases].flatten
  | _, t@(.method _ _ key fn) => ⟨_, t⟩ :: [key.phrases, fn.phrases].flatten
  | _, t@(.field _ key value) => ⟨_, t⟩ :: [key.phrases, value.phrases].flatten
  | _, t@(.staticBlock inner) => ⟨_, t⟩ :: [inner.phrases].flatten
  | _, t@(.varDecl _ declarators) => ⟨_, t⟩ :: [declarators.phrases].flatten
  | _, t@(.declarator target init) => ⟨_, t⟩ :: [target.phrases, init.phrases].flatten
  | _, t@(.declHead decl) => ⟨_, t⟩ :: [decl.phrases].flatten
  | _, t@(.exprHead expr) => ⟨_, t⟩ :: [expr.phrases].flatten
  | _, t@(.switchCase test inner) => ⟨_, t⟩ :: [test.phrases, inner.phrases].flatten
  | _, t@(.handler param inner) => ⟨_, t⟩ :: [param.phrases, inner.phrases].flatten
  | _, t@(.exprStmt expr) => ⟨_, t⟩ :: [expr.phrases].flatten
  | _, t@(.varStmt decl) => ⟨_, t⟩ :: [decl.phrases].flatten
  | _, t@(.functionStmt fn) => ⟨_, t⟩ :: [fn.phrases].flatten
  | _, t@(.classStmt definition) => ⟨_, t⟩ :: [definition.phrases].flatten
  | _, t@(.blockStmt inner) => ⟨_, t⟩ :: [inner.phrases].flatten
  | _, t@(.ifStmt test consequent alternate) =>
    ⟨_, t⟩ :: [test.phrases, consequent.phrases, alternate.phrases].flatten
  | _, t@(.forStmt init test step inner) =>
    ⟨_, t⟩ :: [init.phrases, test.phrases, step.phrases, inner.phrases].flatten
  | _, t@(.forIn left right inner) => ⟨_, t⟩ :: [left.phrases, right.phrases, inner.phrases].flatten
  | _, t@(.forOf _ left right inner) =>
    ⟨_, t⟩ :: [left.phrases, right.phrases, inner.phrases].flatten
  | _, t@(.whileStmt test inner) => ⟨_, t⟩ :: [test.phrases, inner.phrases].flatten
  | _, t@(.doWhile test inner) => ⟨_, t⟩ :: [test.phrases, inner.phrases].flatten
  | _, t@(.returnStmt value) => ⟨_, t⟩ :: [value.phrases].flatten
  | _, t@(.throwStmt value) => ⟨_, t⟩ :: [value.phrases].flatten
  | _, t@(.labeled _ inner) => ⟨_, t⟩ :: [inner.phrases].flatten
  | _, t@(.switchStmt discriminant cases) => ⟨_, t⟩ :: [discriminant.phrases, cases.phrases].flatten
  | _, t@(.tryStmt block caught finalizer) =>
    ⟨_, t⟩ :: [block.phrases, caught.phrases, finalizer.phrases].flatten
  | _, t@(.sequence inner) => ⟨_, t⟩ :: [inner.phrases].flatten
  | _, t@(.stmts items) => ⟨_, t⟩ :: [items.phrases].flatten
  | _, t@(.body stmt) => ⟨_, t⟩ :: [stmt.phrases].flatten
  | _, t@(.cons head tail) => ⟨_, t⟩ :: [head.phrases, tail.phrases].flatten
  | _, t@(.some value) => ⟨_, t⟩ :: [value.phrases].flatten
  | _, t => [⟨_, t⟩]

theorem phrases_eq {c : Category} (t : Tree c) :
    t.phrases = ⟨c, t⟩ :: t.parts.flatMap fun p => p.2.phrases := by
  cases t <;> rfl

theorem self_mem_phrases {c : Category} (t : Tree c) : ⟨c, t⟩ ∈ t.phrases := by
  rw [phrases_eq]
  exact List.mem_cons_self

/-- The phrases of a part are phrases of the whole. -/
theorem mem_phrases_of_part {c : Category} {t : Tree c} {p q : Phrase} (hp : p ∈ t.parts)
    (hq : q ∈ p.2.phrases) : q ∈ t.phrases := by
  rw [phrases_eq]
  exact List.mem_cons_of_mem _ (List.mem_flatMap.mpr ⟨p, hp, hq⟩)

/-- A phrase of a tree is the tree itself or a phrase of one of its parts. -/
theorem mem_phrases {c : Category} {t : Tree c} {q : Phrase} :
    q ∈ t.phrases ↔ q = ⟨c, t⟩ ∨ ∃ p ∈ t.parts, q ∈ p.2.phrases := by
  rw [phrases_eq, List.mem_cons, List.mem_flatMap]

/-- What is read off the phrases of a tree is read off the tree itself and then off its parts. -/
theorem filterMap_phrases {α : Type} (f : Phrase → Option α) {c : Category} (t : Tree c) :
    t.phrases.filterMap f =
      (f ⟨c, t⟩).toList ++ t.parts.flatMap fun p => p.2.phrases.filterMap f := by
  rw [phrases_eq, List.filterMap_cons, List.filterMap_flatMap]
  cases f ⟨c, t⟩ <;> rfl

/-! ## Induction on parts -/

/-- A property of each phrase of a list. -/
def Each (motive : (c : Category) → Tree c → Prop) : List Phrase → Prop
  | [] => True
  | ⟨c, t⟩ :: ps => motive c t ∧ Each motive ps

theorem Each.of_mem {motive : (c : Category) → Tree c → Prop} {ps : List Phrase}
    (h : Each motive ps) : ∀ p ∈ ps, motive p.1 p.2 := by
  induction ps with
  | nil => intro p hp; cases hp
  | cons q qs ih =>
    intro p hp
    rcases List.mem_cons.mp hp with rfl | hp
    · exact h.1
    · exact ih h.2 p hp

theorem Each.of_forall {motive : (c : Category) → Tree c → Prop} {ps : List Phrase}
    (h : ∀ p ∈ ps, motive p.1 p.2) : Each motive ps := by
  induction ps with
  | nil => trivial
  | cons q qs ih =>
    exact ⟨h q List.mem_cons_self, ih fun p hp => h p (List.mem_cons_of_mem _ hp)⟩

/-- What holds of a phrase as soon as it holds of its parts holds of every tree. -/
@[elab_as_elim]
theorem induction_on_parts {motive : (c : Category) → Tree c → Prop} {c : Category} (t : Tree c)
    (step : ∀ (c : Category) (t : Tree c), (∀ p ∈ t.parts, motive p.1 p.2) → motive c t) :
    motive c t := by
  induction t <;> refine step _ _ (Each.of_mem ?_)
  -- a form has at most four parts
  all_goals first
    | exact trivial
    | exact ⟨by assumption, trivial⟩
    | exact ⟨by assumption, by assumption, trivial⟩
    | exact ⟨by assumption, by assumption, by assumption, trivial⟩
    | exact ⟨by assumption, by assumption, by assumption, by assumption, trivial⟩

/-- What holds of a phrase as soon as it holds of all phrases inside it holds of every tree. -/
@[elab_as_elim]
theorem induction_on_phrases {motive : (c : Category) → Tree c → Prop} {c : Category} (t : Tree c)
    (step : ∀ (c : Category) (t : Tree c),
      (∀ p ∈ t.parts, ∀ q ∈ p.2.phrases, motive q.1 q.2) → motive c t) :
    motive c t := by
  suffices h : ∀ q ∈ t.phrases, motive q.1 q.2 from h _ t.self_mem_phrases
  induction t using induction_on_parts with
  | step c t ih =>
    intro q hq
    rcases mem_phrases.mp hq with rfl | ⟨p, hp, hq⟩
    · exact step c t ih
    · exact ih p hp q hq

/-- Phrases of a phrase are phrases of the tree that it stands in. -/
theorem mem_phrases_trans {c : Category} {t : Tree c} {q r : Phrase} (hq : q ∈ t.phrases)
    (hr : r ∈ q.2.phrases) : r ∈ t.phrases := by
  induction t using induction_on_parts with
  | step c t ih =>
    rcases mem_phrases.mp hq with rfl | ⟨p, hp, hq⟩
    · exact hr
    · exact mem_phrases_of_part hp (ih p hp hq)

/-! ## Comparisons -/

/-- What holds of whatever a constructor makes holds of a phrase that has the constructor's number. -/
theorem of_ctorIdx {c : Category} {motive : Tree c → Prop} {n : Nat} {u : Tree c} (h : n = u.ctorIdx)
    (made : Tree.ctorElimType (motive := fun d v => ∀ hd : d = c, motive (hd ▸ v)) n) : motive u :=
  Tree.ctorElim (motive := fun d v => ∀ hd : d = c, motive (hd ▸ v)) n u h made rfl

/-- Whether two phrases have one form, with scalars that compare equal. -/
def sameForm {c : Category} (t u : Tree c) : Bool :=
  Nat.beq t.ctorIdx u.ctorIdx && sameScalars t.scalars u.scalars

/-- Two phrases of one category. -/
abbrev Pair := (c : Category) × Tree c × Tree c

/-- Two lists of phrases paired up, as far as their categories agree. -/
def pairUp : List Phrase → List Phrase → List Pair
  | ⟨c, t⟩ :: ps, ⟨d, u⟩ :: qs => if h : d = c then ⟨c, t, h ▸ u⟩ :: pairUp ps qs else []
  | _, _ => []

theorem pairUp_cons {c : Category} (t u : Tree c) (ps qs : List Phrase) :
    pairUp (⟨c, t⟩ :: ps) (⟨c, u⟩ :: qs) = ⟨c, t, u⟩ :: pairUp ps qs := by
  simp only [pairUp, dite_true]

section

variable {m : Type → Type} [Monad m]

/-- A comparison of pairs, up to the first that fails. -/
def agreeAll (f : (c : Category) → Tree c → Tree c → m Bool) : List Pair → m Bool
  | [] => pure true
  | [⟨c, t, u⟩] => f c t u
  | ⟨c, t, u⟩ :: ps => both (f c t u) fun _ => agreeAll f ps

theorem parts_cons {c : Category} (h : Tree c) (t : Tree (.list c)) :
    (cons h t).parts = [⟨_, h⟩, ⟨_, t⟩] := rfl

theorem parts_some {c : Category} (t : Tree c) : (some t).parts = [⟨_, t⟩] := rfl

private theorem pure_eq_ite (b : Bool) :
    (pure b : m Bool) = if b = true then pure true else pure false := by
  cases b <;> rfl

/-- Phrases of different forms disagree. -/
theorem agree_of_ne (hook : PairHook m) {c : Category} {t u : Tree c}
    (h : Nat.beq t.ctorIdx u.ctorIdx = false) : agree hook t u = pure false := by
  cases t <;> cases u <;> first | rfl | exact absurd h Bool.noConfusion

/-- Phrases of one form agree when their scalars do and then their parts. -/
theorem agree_of_eq (hook : PairHook m) {c : Category} {t u : Tree c}
    (h : Nat.beq t.ctorIdx u.ctorIdx = true) :
    agree hook t u =
      if sameScalars t.scalars u.scalars = true then
        agreeAll (fun c t u => hook c t u fun _ => agree hook t u) (pairUp t.parts u.parts)
      else pure false := by
  -- the form of the one is known, so that of the other is
  cases t <;>
    refine of_ctorIdx
      (motive := fun u => agree hook _ u =
        if sameScalars _ u.scalars = true then
          agreeAll (fun c t u => hook c t u fun _ => agree hook t u) (pairUp _ u.parts)
        else pure false)
      (Nat.eq_of_beq_eq_true h) (.up ?_) <;>
    repeat intro _
  case cons hd => cases hd; rw [parts_cons, parts_cons, pairUp_cons, pairUp_cons]; rfl
  case some hd => cases hd; rw [parts_some, parts_some, pairUp_cons]; rfl
  case nil hd => cases hd; rfl
  case none hd => cases hd; rfl
  all_goals first
    | rfl
    | exact pure_eq_ite _

/-- A comparison compares the forms, and then the parts in order. -/
theorem agree_eq (hook : PairHook m) {c : Category} (t u : Tree c) :
    agree hook t u =
      if t.sameForm u = true then
        agreeAll (fun c t u => hook c t u fun _ => agree hook t u) (pairUp t.parts u.parts)
      else pure false := by
  unfold sameForm
  cases h : Nat.beq t.ctorIdx u.ctorIdx with
  | false => rw [agree_of_ne hook h]; rfl
  | true => rw [agree_of_eq hook h, Bool.true_and]

end

/-- Phrases of one form have parts of the same categories. -/
theorem parts_aligned {c : Category} {t u : Tree c} (h : t.sameForm u = true) :
    t.parts.map Sigma.fst = u.parts.map Sigma.fst := by
  replace h := Nat.eq_of_beq_eq_true (Bool.and_eq_true_iff.mp h).1
  cases t <;>
    refine of_ctorIdx (motive := fun u => _ = u.parts.map Sigma.fst) h (.up ?_) <;>
    repeat intro _
  case cons hd => cases hd; rfl
  case some hd => cases hd; rfl
  case nil hd => cases hd; rfl
  case none hd => cases hd; rfl
  all_goals rfl

/-! ## Walks -/

/-- The parts that a walk visits. -/
def visited : {c : Category} → Tree c → List Phrase
  | _, .access false _ target _ => [⟨_, target⟩]
  | _, t => t.parts

/-- The parts that a walk leaves as they are: the property of a dot access. -/
def unvisited : {c : Category} → Tree c → List Phrase
  | _, .access false _ _ prop => [⟨_, prop⟩]
  | _, _ => []

theorem parts_eq {c : Category} (t : Tree c) : t.parts = t.visited ++ t.unvisited := by
  cases t
  case access computed _ _ _ => cases computed <;> rfl
  all_goals rfl

/-- The phrase of a list at a place, if it is of the category of `t`, and otherwise `t`. -/
def partAt {c : Category} (ps : List Phrase) (i : Nat) (t : Tree c) : Tree c :=
  match ps[i]? with
  | Option.some ⟨d, u⟩ => if h : d = c then h ▸ u else t
  | Option.none => t

theorem partAt_zero {c : Category} (u t : Tree c) (ps : List Phrase) :
    partAt (⟨c, u⟩ :: ps) 0 t = u := by
  simp only [partAt, List.getElem?_cons_zero, dite_true]

theorem partAt_succ {c : Category} (p : Phrase) (t : Tree c) (ps : List Phrase) (i : Nat) :
    partAt (p :: ps) (i + 1) t = partAt ps i t := by
  simp only [partAt, List.getElem?_cons_succ]

/-- A phrase with other phrases in the place of its visited parts. -/
def rebuild : {c : Category} → Tree c → List Phrase → Tree c
  | _, .identExpr name, ps => .identExpr (partAt ps 0 name)
  | _, .template chunks substitutions, ps => .template chunks (partAt ps 0 substitutions)
  | _, .tagged chunks tag substitutions, ps =>
    .tagged chunks (partAt ps 0 tag) (partAt ps 1 substitutions)
  | _, .array elements, ps => .array (partAt ps 0 elements)
  | _, .object properties, ps => .object (partAt ps 0 properties)
  | _, .functionExpr fn, ps => .functionExpr (partAt ps 0 fn)
  | _, .arrow isAsync params inner, ps => .arrow isAsync (partAt ps 0 params) (partAt ps 1 inner)
  | _, .classExpr definition, ps => .classExpr (partAt ps 0 definition)
  | _, .unary op arg, ps => .unary op (partAt ps 0 arg)
  | _, .update op before arg, ps => .update op before (partAt ps 0 arg)
  | _, .binary op left right, ps => .binary op (partAt ps 0 left) (partAt ps 1 right)
  | _, .assign op target value, ps => .assign op (partAt ps 0 target) (partAt ps 1 value)
  | _, .conditional test consequent alternate, ps =>
    .conditional (partAt ps 0 test) (partAt ps 1 consequent) (partAt ps 2 alternate)
  | _, .call optional callee args, ps => .call optional (partAt ps 0 callee) (partAt ps 1 args)
  | _, .new callee args, ps => .new (partAt ps 0 callee) (partAt ps 1 args)
  | _, .comma parts, ps => .comma (partAt ps 0 parts)
  | _, .spread arg, ps => .spread (partAt ps 0 arg)
  | _, .await arg, ps => .await (partAt ps 0 arg)
  | _, .yield delegate arg, ps => .yield delegate (partAt ps 0 arg)
  | _, .nameBinder name, ps => .nameBinder (partAt ps 0 name)
  | _, .arrayBinder elements, ps => .arrayBinder (partAt ps 0 elements)
  | _, .objectBinder properties, ps => .objectBinder (partAt ps 0 properties)
  | _, .defaultBinder target value, ps => .defaultBinder (partAt ps 0 target) (partAt ps 1 value)
  | _, .restBinder target, ps => .restBinder (partAt ps 0 target)
  | _, .keyedBinder key value, ps => .keyedBinder (partAt ps 0 key) (partAt ps 1 value)
  | _, .shortBinder name value, ps => .shortBinder (partAt ps 0 name) (partAt ps 1 value)
  | _, .restProp target, ps => .restProp (partAt ps 0 target)
  | _, .computedKey expr, ps => .computedKey (partAt ps 0 expr)
  | _, .keyed key value, ps => .keyed (partAt ps 0 key) (partAt ps 1 value)
  | _, .shorthand name, ps => .shorthand (partAt ps 0 name)
  | _, .methodProp kind key fn, ps => .methodProp kind (partAt ps 0 key) (partAt ps 1 fn)
  | _, .spreadProp arg, ps => .spreadProp (partAt ps 0 arg)
  | _, .function isAsync isGenerator name params inner, ps =>
    .function isAsync isGenerator (partAt ps 0 name) (partAt ps 1 params) (partAt ps 2 inner)
  | _, .exprBody value, ps => .exprBody (partAt ps 0 value)
  | _, .blockBody inner, ps => .blockBody (partAt ps 0 inner)
  | _, .classDef name heritage members, ps =>
    .classDef (partAt ps 0 name) (partAt ps 1 heritage) (partAt ps 2 members)
  | _, .method kind isStatic key fn, ps => .method kind isStatic (partAt ps 0 key) (partAt ps 1 fn)
  | _, .field isStatic key value, ps => .field isStatic (partAt ps 0 key) (partAt ps 1 value)
  | _, .staticBlock inner, ps => .staticBlock (partAt ps 0 inner)
  | _, .varDecl kind declarators, ps => .varDecl kind (partAt ps 0 declarators)
  | _, .declarator target init, ps => .declarator (partAt ps 0 target) (partAt ps 1 init)
  | _, .declHead decl, ps => .declHead (partAt ps 0 decl)
  | _, .exprHead expr, ps => .exprHead (partAt ps 0 expr)
  | _, .switchCase test inner, ps => .switchCase (partAt ps 0 test) (partAt ps 1 inner)
  | _, .handler param inner, ps => .handler (partAt ps 0 param) (partAt ps 1 inner)
  | _, .exprStmt expr, ps => .exprStmt (partAt ps 0 expr)
  | _, .varStmt decl, ps => .varStmt (partAt ps 0 decl)
  | _, .functionStmt fn, ps => .functionStmt (partAt ps 0 fn)
  | _, .classStmt definition, ps => .classStmt (partAt ps 0 definition)
  | _, .blockStmt inner, ps => .blockStmt (partAt ps 0 inner)
  | _, .ifStmt test consequent alternate, ps =>
    .ifStmt (partAt ps 0 test) (partAt ps 1 consequent) (partAt ps 2 alternate)
  | _, .forStmt init test step inner, ps =>
    .forStmt (partAt ps 0 init) (partAt ps 1 test) (partAt ps 2 step) (partAt ps 3 inner)
  | _, .forIn left right inner, ps =>
    .forIn (partAt ps 0 left) (partAt ps 1 right) (partAt ps 2 inner)
  | _, .forOf isAwait left right inner, ps =>
    .forOf isAwait (partAt ps 0 left) (partAt ps 1 right) (partAt ps 2 inner)
  | _, .whileStmt test inner, ps => .whileStmt (partAt ps 0 test) (partAt ps 1 inner)
  | _, .doWhile test inner, ps => .doWhile (partAt ps 0 test) (partAt ps 1 inner)
  | _, .returnStmt value, ps => .returnStmt (partAt ps 0 value)
  | _, .throwStmt value, ps => .throwStmt (partAt ps 0 value)
  | _, .labeled label inner, ps => .labeled label (partAt ps 0 inner)
  | _, .switchStmt discriminant cases, ps =>
    .switchStmt (partAt ps 0 discriminant) (partAt ps 1 cases)
  | _, .tryStmt block caught finalizer, ps =>
    .tryStmt (partAt ps 0 block) (partAt ps 1 caught) (partAt ps 2 finalizer)
  | _, .sequence inner, ps => .sequence (partAt ps 0 inner)
  | _, .stmts items, ps => .stmts (partAt ps 0 items)
  | _, .body stmt, ps => .body (partAt ps 0 stmt)
  | _, .cons head tail, ps => .cons (partAt ps 0 head) (partAt ps 1 tail)
  | _, .some value, ps => .some (partAt ps 0 value)
  | _, .access computed optional target prop, ps =>
    .access computed optional (partAt ps 0 target) (if computed then partAt ps 1 prop else prop)
  | _, t, _ => t

section

variable {m : Type → Type} [Monad m]

/-- A walk over phrases in order, and what is built from the results. -/
def walkAll {c : Category} (f : (c : Category) → Tree c → m (Tree c)) :
    List Phrase → (List Phrase → Tree c) → m (Tree c)
  | [], build => pure (build [])
  | ⟨d, t⟩ :: ps, build => do
    let u ← f d t
    walkAll f ps fun us => build (⟨d, u⟩ :: us)

/-- A walk visits the parts in order and rebuilds the phrase. -/
theorem descend_eq [LawfulMonad m] (hook : Hook m) {c : Category} (t : Tree c) :
    descend hook t = walkAll (fun c t => hook c t fun _ => descend hook t) t.visited t.rebuild := by
  cases t
  case access computed optional target prop =>
    cases computed with
    | true => rfl
    | false =>
      -- the property is passed on as it is
      show (hook _ target fun _ => descend hook target) >>= (fun target =>
        pure prop >>= fun prop => pure (access false optional target prop)) = _
      simp only [pure_bind]
      rfl
  case cons c h t =>
    show _ = walkAll _ [⟨c, h⟩, ⟨_, t⟩] fun us => cons (partAt us 0 h) (partAt us 1 t)
    simp only [walkAll, partAt_zero, partAt_succ]
    rfl
  case some c t =>
    show _ = walkAll _ [⟨c, t⟩] fun us => some (partAt us 0 t)
    simp only [walkAll, partAt_zero]
    rfl
  all_goals rfl

end

theorem ctorIdx_rebuild {c : Category} (t : Tree c) (ps : List Phrase) :
    (t.rebuild ps).ctorIdx = t.ctorIdx := by
  cases t <;> rfl

theorem scalars_rebuild {c : Category} (t : Tree c) (ps : List Phrase) :
    (t.rebuild ps).scalars = t.scalars := by
  cases t <;> rfl

theorem sameForm_rebuild {c : Category} (t : Tree c) (ps : List Phrase) :
    (t.rebuild ps).sameForm = t.sameForm := by
  funext u
  rw [sameForm, ctorIdx_rebuild, scalars_rebuild, sameForm]

/-- The phrases of a list from a place on, each in the place of another. -/
def takeFrom (us : List Phrase) : Nat → List Phrase → List Phrase
  | _, [] => []
  | i, ⟨c, t⟩ :: ps => ⟨c, partAt us i t⟩ :: takeFrom us (i + 1) ps

theorem takeFrom_succ (u : Phrase) (us : List Phrase) (i : Nat) (ps : List Phrase) :
    takeFrom (u :: us) (i + 1) ps = takeFrom us i ps := by
  induction ps generalizing i with
  | nil => rfl
  | cons p ps ih => rw [takeFrom, takeFrom, partAt_succ, ih]

theorem takeFrom_zero {us ps : List Phrase} (h : us.map Sigma.fst = ps.map Sigma.fst) :
    takeFrom us 0 ps = us := by
  induction ps generalizing us with
  | nil => rw [List.map_eq_nil_iff.mp h]; rfl
  | cons p ps ih =>
    obtain ⟨c, t⟩ := p
    obtain ⟨⟨d, u⟩, us, rfl, hd, hus⟩ := List.map_eq_cons_iff.mp h
    cases hd
    rw [takeFrom, takeFrom_succ, partAt_zero, ih hus]

theorem visited_rebuild_eq {c : Category} (t : Tree c) (us : List Phrase) :
    (t.rebuild us).visited = takeFrom us 0 t.visited := by
  cases t
  case access computed _ _ _ => cases computed <;> rfl
  all_goals rfl

theorem unvisited_rebuild {c : Category} (t : Tree c) (us : List Phrase) :
    (t.rebuild us).unvisited = t.unvisited := by
  cases t
  case access computed _ _ _ => cases computed <;> rfl
  all_goals rfl

/-- The visited parts of a rebuilt phrase are what it was rebuilt from. -/
theorem visited_rebuild {c : Category} {t : Tree c} {us : List Phrase}
    (h : us.map Sigma.fst = t.visited.map Sigma.fst) : (t.rebuild us).visited = us := by
  rw [visited_rebuild_eq, takeFrom_zero h]

theorem rebuild_visited {c : Category} (t : Tree c) : t.rebuild t.visited = t := by
  cases t
  case access computed _ _ _ => cases computed <;> rfl
  case cons c h t =>
    show cons (partAt [⟨c, h⟩, ⟨_, t⟩] 0 h) (partAt [⟨c, h⟩, ⟨_, t⟩] 1 t) = cons h t
    rw [partAt_zero, partAt_succ, partAt_zero]
  case some c t =>
    show some (partAt [⟨c, t⟩] 0 t) = some t
    rw [partAt_zero]
  all_goals rfl

end Tree

end Unminify
