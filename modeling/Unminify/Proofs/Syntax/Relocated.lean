import Mathlib.Data.List.Basic
import Unminify.Proofs.Syntax.Reached

/-!
# Trees at other positions

The same code in another layout has its identifiers at other positions, and may spell a zero with a
sign. `relocate` takes a tree to one that has the same form: it renumbers the positions and drops the
signs of zeros, and changes nothing else.

* `same_relocate` — comparisons do not see the difference;
* `relocate_eq_of_same` — trees that are the same become equal, if their positions do.
-/

namespace Unminify

/-! ## Scalars -/

/-- A number, a zero being positive. -/
def Binary64.unsigned (x : Binary64) : Binary64 := if x.isZero then zero else x

theorem Binary64.isZero_zero : zero.isZero = true := rfl

theorem Binary64.isNaN_of_isZero {x : Binary64} (h : x.isZero = true) : x.isNaN = false := by
  simp only [isZero, Bool.and_eq_true, beq_iff_eq] at h
  simp only [isNaN, h.1, Bool.and_eq_false_iff]
  exact .inl rfl

theorem Binary64.equal_unsigned (x y : Binary64) : x.unsigned.equal y = x.equal y := by
  unfold unsigned
  split
  · rename_i hx
    have hbits : x.bits = y.bits → y.isZero = true := fun h => isZero_of_bits_eq h ▸ hx
    have hzero : zero.bits = y.bits → y.isZero = true := fun h => isZero_of_bits_eq h ▸ isZero_zero
    have hnan := isNaN_of_isZero hx
    cases hy : y.isZero with
    | true =>
      simp only [equal, hx, hy, hnan, isZero_zero, isNaN_of_isZero isZero_zero, Bool.and_self,
        Bool.or_true]
    | false =>
      have hne : (x.bits == y.bits) = false := beq_false_of_ne fun h => by
        rw [hbits h] at hy
        cases hy
      have hne' : (zero.bits == y.bits) = false := beq_false_of_ne fun h => by
        rw [hzero h] at hy
        cases hy
      simp only [equal, hy, hne, hne', Bool.and_false, Bool.or_self]
  · rfl

theorem Binary64.unsigned_eq_of_equal {x y : Binary64} (h : x.equal y = true) :
    x.unsigned = y.unsigned := by
  simp only [equal, Bool.and_eq_true, Bool.or_eq_true, beq_iff_eq] at h
  rcases h.2 with hbits | ⟨hx, hy⟩
  · cases x
    cases y
    cases hbits
    rfl
  · rw [unsigned, unsigned, if_pos hx, if_pos hy]

/-- A literal, a zero being positive. -/
def Literal.unsigned : Literal → Literal
  | number x => number x.unsigned
  | l => l

theorem Literal.same_unsigned (a b : Literal) : a.unsigned.same b = a.same b := by
  cases a with
  | number x =>
    cases b with
    | number y => exact Binary64.equal_unsigned x y
    | _ => rfl
  | _ => rfl

theorem Literal.unsigned_eq_of_same {a b : Literal} (h : a.same b = true) :
    a.unsigned = b.unsigned := by
  cases a <;> cases b <;> simp only [same, beq_iff_eq, reduceCtorEq] at h
  case number x y => exact congrArg number (Binary64.unsigned_eq_of_equal h)
  all_goals first | rfl | exact congrArg unsigned h

namespace Scalar

/-- A scalar at another position. -/
def relocate (φ : Nat → Nat) : Scalar → Scalar
  | position id => position (id.map φ)
  | number x => number x.unsigned
  | literal l => literal l.unsigned
  | other => other

theorem same_relocate (φ : Nat → Nat) (a b : Scalar) : (a.relocate φ).same b = a.same b := by
  cases a with
  | position id => cases b <;> rfl
  | number x =>
    cases b with
    | number y => exact Binary64.equal_unsigned x y
    | _ => rfl
  | literal l =>
    cases b with
    | literal l' => exact Literal.same_unsigned l l'
    | _ => rfl
  | _ => rfl

/-- Whether a scalar is the position of an identifier. -/
def isPosition : Scalar → Bool
  | position _ => true
  | _ => false

theorem relocate_eq_of_same {φ ψ : Nat → Nat} {a b : Scalar} (h : a.same b = true)
    (ha : ∀ id, a ≠ position id) : a.relocate φ = b.relocate ψ := by
  cases a with
  | position id => exact absurd rfl (ha id)
  | number x =>
    cases b with
    | number y => exact congrArg number (Binary64.unsigned_eq_of_equal h)
    | _ => cases h
  | literal l =>
    cases b with
    | literal l' => exact congrArg literal (Literal.unsigned_eq_of_same h)
    | _ => cases h
  | _ => cases b <;> first | cases beq_iff_eq.mp h; rfl | cases h

end Scalar

theorem sameScalars_relocate (φ : Nat → Nat) (as bs : List Scalar) :
    sameScalars (as.map (Scalar.relocate φ)) bs = sameScalars as bs := by
  induction as generalizing bs with
  | nil => rfl
  | cons a as ih =>
    cases bs with
    | nil => cases as <;> rfl
    | cons b bs =>
      rw [List.map_cons, Bool.eq_iff_iff, sameScalars_cons, sameScalars_cons, ih,
        Scalar.same_relocate]

namespace Tree

/-! ## Relocation -/

/-- A tree with its identifiers at other positions, in which no zero has a sign. -/
def relocate (φ : Nat → Nat) : {c : Category} → Tree c → Tree c
  | _, .ident text id => .ident text (id.map φ)
  | _, .identExpr name => .identExpr (name.relocate φ)
  | _, .literal value => .literal value.unsigned
  | _, .template chunks substitutions => .template chunks (substitutions.relocate φ)
  | _, .tagged chunks tag substitutions => .tagged chunks (tag.relocate φ) (substitutions.relocate φ)
  | _, .array elements => .array (elements.relocate φ)
  | _, .object properties => .object (properties.relocate φ)
  | _, .functionExpr fn => .functionExpr (fn.relocate φ)
  | _, .arrow isAsync params inner => .arrow isAsync (params.relocate φ) (inner.relocate φ)
  | _, .classExpr definition => .classExpr (definition.relocate φ)
  | _, .unary op arg => .unary op (arg.relocate φ)
  | _, .update op before arg => .update op before (arg.relocate φ)
  | _, .binary op left right => .binary op (left.relocate φ) (right.relocate φ)
  | _, .assign op target value => .assign op (target.relocate φ) (value.relocate φ)
  | _, .conditional test consequent alternate =>
    .conditional (test.relocate φ) (consequent.relocate φ) (alternate.relocate φ)
  | _, .call optional callee args => .call optional (callee.relocate φ) (args.relocate φ)
  | _, .new callee args => .new (callee.relocate φ) (args.relocate φ)
  | _, .access computed optional target prop =>
    .access computed optional (target.relocate φ) (prop.relocate φ)
  | _, .comma parts => .comma (parts.relocate φ)
  | _, .spread arg => .spread (arg.relocate φ)
  | _, .await arg => .await (arg.relocate φ)
  | _, .yield delegate arg => .yield delegate (arg.relocate φ)
  | _, .nameBinder name => .nameBinder (name.relocate φ)
  | _, .arrayBinder elements => .arrayBinder (elements.relocate φ)
  | _, .objectBinder properties => .objectBinder (properties.relocate φ)
  | _, .defaultBinder target value => .defaultBinder (target.relocate φ) (value.relocate φ)
  | _, .restBinder target => .restBinder (target.relocate φ)
  | _, .keyedBinder key value => .keyedBinder (key.relocate φ) (value.relocate φ)
  | _, .shortBinder name value => .shortBinder (name.relocate φ) (value.relocate φ)
  | _, .restProp target => .restProp (target.relocate φ)
  | _, .numberKey value => .numberKey value.unsigned
  | _, .computedKey expr => .computedKey (expr.relocate φ)
  | _, .keyed key value => .keyed (key.relocate φ) (value.relocate φ)
  | _, .shorthand name => .shorthand (name.relocate φ)
  | _, .methodProp kind key fn => .methodProp kind (key.relocate φ) (fn.relocate φ)
  | _, .spreadProp arg => .spreadProp (arg.relocate φ)
  | _, .function isAsync isGenerator name params inner =>
    .function isAsync isGenerator (name.relocate φ) (params.relocate φ) (inner.relocate φ)
  | _, .exprBody value => .exprBody (value.relocate φ)
  | _, .blockBody inner => .blockBody (inner.relocate φ)
  | _, .classDef name heritage members =>
    .classDef (name.relocate φ) (heritage.relocate φ) (members.relocate φ)
  | _, .method kind isStatic key fn => .method kind isStatic (key.relocate φ) (fn.relocate φ)
  | _, .field isStatic key value => .field isStatic (key.relocate φ) (value.relocate φ)
  | _, .staticBlock inner => .staticBlock (inner.relocate φ)
  | _, .varDecl kind declarators => .varDecl kind (declarators.relocate φ)
  | _, .declarator target init => .declarator (target.relocate φ) (init.relocate φ)
  | _, .declHead decl => .declHead (decl.relocate φ)
  | _, .exprHead expr => .exprHead (expr.relocate φ)
  | _, .switchCase test inner => .switchCase (test.relocate φ) (inner.relocate φ)
  | _, .handler param inner => .handler (param.relocate φ) (inner.relocate φ)
  | _, .exprStmt expr => .exprStmt (expr.relocate φ)
  | _, .varStmt decl => .varStmt (decl.relocate φ)
  | _, .functionStmt fn => .functionStmt (fn.relocate φ)
  | _, .classStmt definition => .classStmt (definition.relocate φ)
  | _, .blockStmt inner => .blockStmt (inner.relocate φ)
  | _, .ifStmt test consequent alternate =>
    .ifStmt (test.relocate φ) (consequent.relocate φ) (alternate.relocate φ)
  | _, .forStmt init test step inner =>
    .forStmt (init.relocate φ) (test.relocate φ) (step.relocate φ) (inner.relocate φ)
  | _, .forIn left right inner => .forIn (left.relocate φ) (right.relocate φ) (inner.relocate φ)
  | _, .forOf isAwait left right inner =>
    .forOf isAwait (left.relocate φ) (right.relocate φ) (inner.relocate φ)
  | _, .whileStmt test inner => .whileStmt (test.relocate φ) (inner.relocate φ)
  | _, .doWhile test inner => .doWhile (test.relocate φ) (inner.relocate φ)
  | _, .returnStmt value => .returnStmt (value.relocate φ)
  | _, .throwStmt value => .throwStmt (value.relocate φ)
  | _, .labeled label inner => .labeled label (inner.relocate φ)
  | _, .switchStmt discriminant cases => .switchStmt (discriminant.relocate φ) (cases.relocate φ)
  | _, .tryStmt inner caught finalizer =>
    .tryStmt (inner.relocate φ) (caught.relocate φ) (finalizer.relocate φ)
  | _, .sequence inner => .sequence (inner.relocate φ)
  | _, .stmts items => .stmts (items.relocate φ)
  | _, .body stmt => .body (stmt.relocate φ)
  | _, .cons head tail => .cons (head.relocate φ) (tail.relocate φ)
  | _, .some value => .some (value.relocate φ)
  | _, other => other

end Tree

/-- A phrase at other positions. -/
def relocatePhrase (φ : Nat → Nat) (p : Phrase) : Phrase := ⟨p.1, p.2.relocate φ⟩

namespace Tree

variable (φ : Nat → Nat) {c : Category}

/-! ## Forms and parts -/

theorem ctorIdx_relocate (t : Tree c) : (t.relocate φ).ctorIdx = t.ctorIdx := by
  cases t <;> rfl

theorem scalars_relocate (t : Tree c) : (t.relocate φ).scalars = t.scalars.map (Scalar.relocate φ) := by
  cases t <;> rfl

theorem parts_relocate (t : Tree c) : (t.relocate φ).parts = t.parts.map (relocatePhrase φ) := by
  cases t <;> rfl

theorem visited_relocate (t : Tree c) : (t.relocate φ).visited = t.visited.map (relocatePhrase φ) := by
  cases t with
  | access computed _ _ _ => cases computed <;> rfl
  | _ => rfl

theorem unvisited_relocate (t : Tree c) :
    (t.relocate φ).unvisited = t.unvisited.map (relocatePhrase φ) := by
  cases t with
  | access computed _ _ _ => cases computed <;> rfl
  | _ => rfl

theorem hole?_relocate (t : Tree c) : (t.relocate φ).hole? = t.hole? := by
  cases t <;> rfl

theorem kind_relocate (s : Stmt) : (s.relocate φ).kind = s.kind := by
  cases s <;> rfl

theorem map_fst_relocatePhrase (ps : List Phrase) :
    (ps.map (relocatePhrase φ)).map Sigma.fst = ps.map Sigma.fst := by
  rw [List.map_map]
  rfl

/-- A tree is determined by its form, its scalars and its parts. -/
theorem eq_of_parts {t u : Tree c} (hidx : t.ctorIdx = u.ctorIdx) (hscalars : t.scalars = u.scalars)
    (hparts : t.parts = u.parts) : t = u := by
  revert hscalars hparts
  cases t <;>
    refine of_ctorIdx (motive := fun u => _ = u.scalars → _ = u.parts → _ = u) hidx (.up ?_) <;>
    repeat intro _
  case cons hd hscalars hparts => cases hd; cases hparts; rfl
  case some hd hscalars hparts => cases hd; cases hparts; rfl
  case nil hd hscalars hparts => cases hd; rfl
  case none hd hscalars hparts => cases hd; rfl
  all_goals
    rename_i hscalars hparts
    cases hscalars
    cases hparts
    rfl

/-- Rebuilding from relocated parts relocates what is rebuilt. -/
theorem rebuild_relocate {t : Tree c} {us : List Phrase}
    (h : us.map Sigma.fst = t.visited.map Sigma.fst) :
    (t.relocate φ).rebuild (us.map (relocatePhrase φ)) = (t.rebuild us).relocate φ := by
  have haligned : (us.map (relocatePhrase φ)).map Sigma.fst =
      (t.relocate φ).visited.map Sigma.fst := by
    rw [visited_relocate, map_fst_relocatePhrase, map_fst_relocatePhrase, h]
  refine eq_of_parts ?_ ?_ ?_
  · rw [ctorIdx_rebuild, ctorIdx_relocate, ctorIdx_relocate, ctorIdx_rebuild]
  · rw [scalars_rebuild, scalars_relocate, scalars_relocate, scalars_rebuild]
  · rw [parts_relocate, parts_eq, parts_eq, visited_rebuild haligned, visited_rebuild h,
      unvisited_rebuild, unvisited_rebuild, unvisited_relocate, List.map_append]

/-! ## Walks -/

/-- How the results of two computations correspond by a function, in a way that computations made of
others inherit. -/
structure Transport (m : Type → Type) [Monad m] where
  rel : {α : Type} → (α → α) → m α → m α → Prop
  pure : ∀ {α : Type} {f : α → α} (a : α), rel f (pure a) (pure (f a))
  bind : ∀ {α β : Type} {f : α → α} {g : β → β} {x x' : m α} {k k' : α → m β}, rel f x x' →
    (∀ a, rel g (k a) (k' (f a))) → rel g (x >>= k) (x' >>= k')

section

variable {φ} {m : Type → Type} [Monad m] (T : Transport m)

theorem Transport.walkAll {f f' : (c : Category) → Tree c → m (Tree c)} {ps : List Phrase}
    (h : ∀ p ∈ ps, T.rel (relocate φ) (f p.1 p.2) (f' p.1 (p.2.relocate φ)))
    {build build' : List Phrase → Tree c}
    (hbuild : ∀ us, us.map Sigma.fst = ps.map Sigma.fst →
      build' (us.map (relocatePhrase φ)) = (build us).relocate φ) :
    T.rel (relocate φ) (Tree.walkAll f ps build) (Tree.walkAll f' (ps.map (relocatePhrase φ)) build') := by
  induction ps generalizing build build' with
  | nil =>
    have hnil := hbuild [] rfl
    rw [List.map_nil] at hnil
    rw [List.map_nil, Tree.walkAll, Tree.walkAll, hnil]
    exact T.pure (build [])
  | cons p ps ih =>
    refine T.bind (h p List.mem_cons_self) fun u => ih (fun q hq => h q (List.mem_cons_of_mem _ hq)) ?_
    intro us hus
    exact hbuild (⟨p.1, u⟩ :: us) (congrArg (p.1 :: ·) hus)

/-- A walk into a phrase at other positions gives the phrase that a walk gives, if the walks of the
visited parts do so. -/
theorem Transport.descend [LawfulMonad m] {hook hook' : Hook m} (t : Tree c)
    (h : ∀ p ∈ t.visited, T.rel (relocate φ) (hook p.1 p.2 fun _ => p.2.descend hook)
      (hook' p.1 (p.2.relocate φ) fun _ => (p.2.relocate φ).descend hook')) :
    T.rel (relocate φ) (t.descend hook) ((t.relocate φ).descend hook') := by
  rw [descend_eq, descend_eq, visited_relocate]
  exact T.walkAll h fun us hus => rebuild_relocate φ hus

end

/-- The result of the one computation is the image of the other's. -/
def Transport.id : Transport Id where
  rel f x x' := x' = f x
  pure _ := rfl
  bind := by
    rintro α β f g x _ k k' rfl hk
    exact hk x

/-! ## Lists and sizes -/

theorem toList_relocate : (t : Tree (.list c)) → (t.relocate φ).toList = t.toList.map (relocate φ)
  | .nil => rfl
  | .cons head tail => congrArg (head.relocate φ :: ·) (toList_relocate tail)

theorem ofList_relocate (ts : List (Tree c)) : (ofList ts).relocate φ = ofList (ts.map (relocate φ)) := by
  induction ts with
  | nil => rfl
  | cons t ts ih =>
    show Tree.cons (t.relocate φ) ((ofList ts).relocate φ) = _
    rw [ih]
    rfl

theorem statements_relocate (b : Block) : (b.relocate φ).statements = b.statements.map (relocate φ) := by
  cases b with
  | stmts items => exact toList_relocate φ items

theorem blockOf_relocate (ss : List Stmt) : (blockOf ss).relocate φ = blockOf (ss.map (relocate φ)) :=
  congrArg stmts (ofList_relocate φ ss)

theorem reached_relocate (t : Tree c) : (t.relocate φ).reached = t.reached.map (relocatePhrase φ) := by
  induction t using induction_on_parts with
  | step c t ih =>
    rw [reached_eq, reached_eq t, visited_relocate, List.map_cons, List.map_flatMap, List.flatMap_map]
    congr 1
    rw [List.flatMap_def, List.flatMap_def]
    exact congrArg List.flatten (List.map_congr_left fun p hp => ih p (mem_parts_of_visited hp))

theorem size_relocate (t : Tree c) : (t.relocate φ).size = t.size := by
  rw [size_eq_length, size_eq_length, reached_relocate, List.length_map]

/-! ## Comparisons -/

theorem sameForm_relocate (t u : Tree c) : (t.relocate φ).sameForm u = t.sameForm u := by
  rw [sameForm, sameForm, ctorIdx_relocate, scalars_relocate, sameScalars_relocate]

theorem sameForm_comm (t u : Tree c) : t.sameForm u = u.sameForm t :=
  Bool.eq_iff_iff.mpr ⟨sameForm_symm, sameForm_symm⟩

theorem sameForm_relocate_right (t u : Tree c) : t.sameForm (u.relocate φ) = t.sameForm u := by
  rw [sameForm_comm, sameForm_relocate, sameForm_comm]

/-- A relation with the parts of a relocated phrase. -/
theorem related_map {R : (c : Category) → Tree c → Tree c → Prop} {ps qs : List Phrase} :
    Related R (ps.map (relocatePhrase φ)) qs ↔ Related (fun c t u => R c (t.relocate φ) u) ps qs := by
  constructor
  · intro h
    induction ps generalizing qs with
    | nil =>
      cases h
      exact .nil
    | cons p ps ih =>
      cases h with
      | cons hr h => exact .cons hr (ih h)
  · intro h
    induction h with
    | nil => exact .nil
    | cons hr _ ih => exact .cons hr ih

/-- Comparisons do not see positions. -/
theorem same_relocate (t u : Tree c) : (t.relocate φ).same u = t.same u := by
  rw [Bool.eq_iff_iff]
  induction t using induction_on_parts with
  | step c t ih =>
    rw [same_iff, same_iff, sameForm_relocate, parts_relocate, related_map]
    refine and_congr_right fun _ => ⟨fun h => ?_, fun h => ?_⟩
    · exact h.imp fun p hp v hv => (ih p hp v).mp hv
    · exact h.imp fun p hp v hv => (ih p hp v).mpr hv

theorem same_comm (t u : Tree c) : t.same u = u.same t :=
  Bool.eq_iff_iff.mpr ⟨same_symm, same_symm⟩

theorem same_relocate_relocate (t u : Tree c) : (t.relocate φ).same (u.relocate φ) = t.same u := by
  rw [same_relocate, same_comm, same_relocate, same_comm]

/-- Relocated trees are the same as trees without non-numbers. -/
theorem same_of_relocate_eq {ψ : Nat → Nat} {t u : Tree c} (h : t.relocate φ = u.relocate ψ)
    (ht : t.NaNFree) : t.same u = true := by
  have hself : t.same (t.relocate φ) = true := by
    rw [same_comm, same_relocate]
    exact same_refl ht
  rwa [h, same_comm, same_relocate, same_comm] at hself

/-! ## Ids -/

/-- The id of a phrase, if it is an identifier. -/
def identId? : {c : Category} → Tree c → Option (Option Nat)
  | _, .ident _ id => Option.some id
  | _, _ => Option.none

/-- The ids of the identifiers of a tree. -/
def ids {c : Category} (t : Tree c) : List (Option Nat) := t.phrases.filterMap (·.2.identId?)

theorem ids_eq (t : Tree c) : t.ids = t.identId?.toList ++ t.parts.flatMap (·.2.ids) :=
  filterMap_phrases _ t

theorem identId?_eq_none {t : Tree c} (hc : c ≠ .name) : t.identId? = Option.none := by
  cases t <;> first | rfl | exact absurd rfl hc

section

variable {φ} {ψ : Nat → Nat}

/-- Phrases of one form are both identifiers, or neither of them is one. -/
theorem length_identId? {t u : Tree c} (h : t.sameForm u = true) :
    t.identId?.toList.length = u.identId?.toList.length := by
  have hidx := (sameForm_iff.mp h).1
  by_cases hc : c = .name
  · subst hc
    cases t <;> cases u <;> first | rfl | cases hidx
  · rw [identId?_eq_none hc, identId?_eq_none hc]

theorem length_flatMap_ids {ps qs : List Phrase}
    (h : Related (fun _ t u => t.ids.length = u.ids.length) ps qs) :
    (ps.flatMap (·.2.ids)).length = (qs.flatMap (·.2.ids)).length := by
  induction h with
  | nil => rfl
  | cons hr _ ih => rw [List.flatMap_cons, List.flatMap_cons, List.length_append, List.length_append, hr, ih]

/-- Trees that are the same have as many ids. -/
theorem length_ids_of_same {t u : Tree c} (h : t.same u = true) : t.ids.length = u.ids.length := by
  induction t using induction_on_parts with
  | step c t ih =>
    obtain ⟨hform, hparts⟩ := same_iff.mp h
    rw [ids_eq, ids_eq u, List.length_append, List.length_append, length_identId? hform,
      length_flatMap_ids (hparts.imp fun p hp v hv => ih p hp hv)]

theorem map_ids_of_related {ps qs : List Phrase} (h : Related (fun _ t u => t.same u = true) ps qs)
    (hids : (ps.flatMap (·.2.ids)).map (Option.map φ) = (qs.flatMap (·.2.ids)).map (Option.map ψ)) :
    Related (fun _ t u => t.same u = true ∧ t.ids.map (Option.map φ) = u.ids.map (Option.map ψ)) ps qs := by
  induction h with
  | nil => exact .nil
  | cons hsame _ ih =>
    rw [List.flatMap_cons, List.flatMap_cons, List.map_append, List.map_append] at hids
    have hlength := length_ids_of_same hsame
    obtain ⟨hhead, htail⟩ := List.append_inj hids (by rw [List.length_map, List.length_map, hlength])
    exact .cons ⟨hsame, hhead⟩ (ih htail)

theorem map_scalars_of_same {as bs : List Scalar} (h : sameScalars as bs = true)
    (has : ∀ a ∈ as, ∀ id, a ≠ .position id) :
    as.map (Scalar.relocate φ) = bs.map (Scalar.relocate ψ) := by
  induction as generalizing bs with
  | nil =>
    cases bs with
    | nil => rfl
    | cons b bs => cases h
  | cons a as ih =>
    cases bs with
    | nil => cases as <;> cases h
    | cons b bs =>
      obtain ⟨hab, h⟩ := sameScalars_cons.mp h
      rw [List.map_cons, List.map_cons, ih h fun a' ha' => has a' (List.mem_cons_of_mem _ ha'),
        Scalar.relocate_eq_of_same hab (has a List.mem_cons_self)]

/-- Only identifiers have positions. -/
theorem scalars_ne_position {t : Tree c} (ht : t.identId? = Option.none) :
    ∀ a ∈ t.scalars, ∀ id, a ≠ .position id := by
  have hnone : t.scalars.all (fun a => !a.isPosition) = true := by
    cases t <;> first | rfl | cases ht
  rintro _ ha id rfl
  cases List.all_eq_true.mp hnone _ ha

theorem scalars_relocate_of_same {t u : Tree c} (h : t.sameForm u = true)
    (hid : t.identId?.toList.map (Option.map φ) = u.identId?.toList.map (Option.map ψ)) :
    t.scalars.map (Scalar.relocate φ) = u.scalars.map (Scalar.relocate ψ) := by
  obtain ⟨hidx, hscalars⟩ := sameForm_iff.mp h
  cases ht : t.identId? with
  | none => exact map_scalars_of_same hscalars (scalars_ne_position ht)
  | some _ =>
    cases t with
    | ident text id =>
      cases u with
      | ident text' id' =>
        have htext : text = text' := beq_iff_eq.mp (sameScalars_cons.mp hscalars).2
        replace hid : id.map φ = id'.map ψ := (List.cons.inj hid).1
        subst htext
        show [Scalar.position (id.map φ), Scalar.text text] = [Scalar.position (id'.map ψ), Scalar.text text]
        rw [hid]
      | nameHole _ => cases hidx
    | _ => cases ht

/-- Trees that are the same become equal when their ids do. -/
theorem relocate_eq_of_same {t u : Tree c} (h : t.same u = true)
    (hids : t.ids.map (Option.map φ) = u.ids.map (Option.map ψ)) : t.relocate φ = u.relocate ψ := by
  induction t using induction_on_parts with
  | step c t ih =>
    obtain ⟨hform, hparts⟩ := same_iff.mp h
    rw [ids_eq, ids_eq u, List.map_append, List.map_append] at hids
    obtain ⟨hroot, hrest⟩ := List.append_inj hids (by
      rw [List.length_map, List.length_map, length_identId? hform])
    refine eq_of_parts ?_ ?_ ?_
    · rw [ctorIdx_relocate, ctorIdx_relocate, (sameForm_iff.mp hform).1]
    · rw [scalars_relocate, scalars_relocate, scalars_relocate_of_same hform hroot]
    · rw [parts_relocate, parts_relocate]
      have heq := (map_ids_of_related hparts hrest).imp
        (S := fun _ t u => t.relocate φ = u.relocate ψ) fun p hp v hv => ih p hp hv.1 hv.2
      clear ih
      generalize t.parts = ps at heq
      generalize u.parts = qs at heq
      induction heq with
      | nil => rfl
      | cons hr _ ih =>
        rw [List.map_cons, List.map_cons, ih]
        simp only [relocatePhrase, hr]

end

/-! ## Numbering -/

/-- All identifiers have ids, and no two have the same. -/
structure Numbered (t : Tree c) : Prop where
  placed : Option.none ∉ t.ids
  distinct : t.ids.Nodup

instance (t : Tree c) : Decidable t.Numbered :=
  decidable_of_iff (Option.none ∉ t.ids ∧ t.ids.Nodup) ⟨fun h => ⟨h.1, h.2⟩, fun h => ⟨h.1, h.2⟩⟩

/-- The ids of a list by their places in it, and all other ids apart from them. -/
def renumber (ids : List (Option Nat)) (i : Nat) : Nat :=
  if Option.some i ∈ ids then 2 * ids.idxOf (Option.some i) else 2 * i + 1

theorem renumber_injective (ids : List (Option Nat)) : Function.Injective (renumber ids) := by
  intro i j h
  unfold renumber at h
  split at h <;> split at h
  · rename_i hi hj
    have hplace : ids.idxOf (Option.some i) = ids.idxOf (Option.some j) := by omega
    exact Option.some.inj ((List.idxOf_inj hi).mp hplace)
  · omega
  · omega
  · omega

theorem renumber_of_not_mem {ids : List (Option Nat)} {i : Nat} (h : Option.some i ∉ ids) :
    renumber ids i = 2 * i + 1 := if_neg h

/-- The ids of a numbered tree are renumbered from the first to the last. -/
theorem Numbered.map_renumber {t : Tree c} (h : t.Numbered) :
    t.ids.map (Option.map (renumber t.ids)) =
      (List.range t.ids.length).map fun n => Option.some (2 * n) := by
  refine List.ext_getElem (by rw [List.length_map, List.length_map, List.length_range]) fun n hn hn' => ?_
  rw [List.length_map] at hn
  rw [List.getElem_map, List.getElem_map, List.getElem_range]
  cases hid : t.ids[n] with
  | none => exact absurd (hid ▸ List.getElem_mem hn) h.placed
  | some i =>
    have hmem : Option.some i ∈ t.ids := hid ▸ List.getElem_mem hn
    rw [Option.map_some, renumber, if_pos hmem, ← hid, h.distinct.idxOf_getElem]

/-- Numbered trees that are the same become equal when their ids are counted. -/
theorem relocate_renumber_eq {t u : Tree c} (h : t.same u = true) (ht : t.Numbered) (hu : u.Numbered) :
    t.relocate (renumber t.ids) = u.relocate (renumber u.ids) := by
  refine relocate_eq_of_same h ?_
  rw [ht.map_renumber, hu.map_renumber, length_ids_of_same h]

/-- Maps that agree on the ids of a tree take it to the same tree. -/
theorem relocate_congr {φ ψ : Nat → Nat} {t : Tree c} (h : ∀ i, Option.some i ∈ t.ids → φ i = ψ i) :
    t.relocate φ = t.relocate ψ := by
  induction t using induction_on_parts with
  | step c t ih =>
    have hparts : ∀ p ∈ t.parts, relocatePhrase φ p = relocatePhrase ψ p := by
      intro p hp
      have hp' := ih p hp fun i hi => h i (ids_eq t ▸ List.mem_append_right _ (List.mem_flatMap.mpr ⟨p, hp, hi⟩))
      rw [relocatePhrase, relocatePhrase, hp']
    refine eq_of_parts ?_ ?_ ?_
    · rw [ctorIdx_relocate, ctorIdx_relocate]
    · rw [scalars_relocate, scalars_relocate]
      cases ht : t.identId? with
      | none =>
        refine List.map_congr_left fun a ha => ?_
        have hne := scalars_ne_position ht a ha
        cases a with
        | position id => exact absurd rfl (hne id)
        | _ => rfl
      | some _ =>
        cases t with
        | ident text id =>
          have hid : id.map φ = id.map ψ := by
            cases id with
            | none => rfl
            | some i => exact congrArg Option.some (h i List.mem_cons_self)
          show [Scalar.position (id.map φ), _] = [Scalar.position (id.map ψ), _]
          rw [hid]
          rfl
        | _ => cases ht
    · rw [parts_relocate, parts_relocate]
      exact List.map_congr_left hparts

end Tree

end Unminify
