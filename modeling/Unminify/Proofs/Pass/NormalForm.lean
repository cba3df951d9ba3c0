import Unminify.Proofs.Pass.Settled
import Unminify.Proofs.Scope.Renamed

/-!
# The normal form of a pass

One pass with all built-in rules comes to an end and leaves a program in normal form (`normal_pass`):
no statement packs others into an expression, no constant is written in its short way, and every
branch and every loop body is in braces, but for chains of `if`s and `for await`.

A settled program is in normal form, since each thing that the normal form excludes is accepted by
some rule. The names that interop helpers are given then change identifiers, and no form.
-/

namespace Unminify

namespace Tree

/-- Whether an expression, used as a statement, packs statements: a comma expression, `&&`, `||` or
`?:`. -/
def packsStatements : Expr → Bool
  | .comma _ => true
  | .binary .and _ _ => true
  | .binary .or _ _ => true
  | .conditional _ _ _ => true
  | _ => false

/-- Whether a body is an `if`. -/
def isIf : Tree .body → Bool
  | .body (.ifStmt _ _ _) => true
  | _ => false

/-- The constants `!1`, `!0` and `void 0`. -/
def shortConstants : List Expr :=
  [.unary .not (.literal (.number ⟨0x3FF0000000000000⟩)), .unary .not (.literal (.number ⟨0⟩)),
    .unary .void (.literal (.number ⟨0⟩))]

/-- Whether a statement is in normal form, apart from what is inside. -/
def isNormalStmt : Stmt → Bool
  | .sequence _ => false
  | .exprStmt e => !e.packsStatements
  | .ifStmt _ consequent alternate =>
    consequent.isBlock && alternate.toOption.all fun a => a.isBlock || a.isIf
  | .whileStmt _ inner => inner.isBlock
  | .doWhile _ inner => inner.isBlock
  | .forStmt _ _ _ inner => inner.isBlock
  | .forIn _ _ inner => inner.isBlock
  -- the rule for these loops leaves `for await` alone
  | .forOf isAwait _ _ inner => isAwait || inner.isBlock
  | _ => true

/-- Whether a phrase is in normal form, apart from what is inside. -/
def isNormal : (c : Category) → Tree c → Bool
  | .stmt, s => s.isNormalStmt
  | .expr, e => shortConstants.all fun constant => !constant.same e
  | _, _ => true

/-- Whether every phrase that a walk reaches is in normal form. -/
def Normal {c : Category} (t : Tree c) : Prop := ∀ q ∈ t.reached, isNormal q.1 q.2 = true

instance {c : Category} (t : Tree c) : Decidable t.Normal :=
  inferInstanceAs (Decidable (∀ q ∈ t.reached, isNormal q.1 q.2 = true))

theorem normal_iff {c : Category} {t : Tree c} :
    t.Normal ↔ isNormal c t = true ∧ ∀ p ∈ t.visited, p.2.Normal :=
  forall_reached

theorem normal_of_parts {c : Category} {t : Tree c} (h : isNormal c t = true)
    (hparts : Each (fun _ t => t.Normal) t.visited) : t.Normal :=
  normal_iff.mpr ⟨h, hparts.of_mem⟩

end Tree

namespace Builtin

open Tree

/-! ## Settled phrases are in normal form -/

theorem isBlock_of_braced {b : Tree .body} (h : b.braced = b) : b.isBlock = true :=
  h ▸ isBlock_braced b

theorem isNormal_exprStmt {e : Expr} (h : simplified all (.exprStmt e) = .exprStmt e) :
    e.packsStatements = false := by
  cases e with
  | comma parts => cases h
  | conditional test left right => cases h
  | binary op left right => cases op <;> first | rfl | cases h
  | _ => rfl

theorem isNormal_chain {test : Expr} {consequent alternate : Tree .body}
    (hconsequent : consequent.isBlock = true)
    (halternate : alternate.isBlock = true ∨ alternate.isIf = true) :
    (ifStmt test consequent (.some alternate)).isNormalStmt = true :=
  Bool.and_eq_true_iff.mpr ⟨hconsequent, Bool.or_eq_true_iff.mpr halternate⟩

theorem isNormal_ifStmt {test : Expr} {consequent : Tree .body} {alternate : Tree (.option .body)}
    (h : simplified all (.ifStmt test consequent alternate) = .ifStmt test consequent alternate) :
    (ifStmt test consequent alternate).isNormalStmt = true := by
  cases alternate with
  | none =>
    have hconsequent := isBlock_of_braced (ifStmt.inj h).2.1
    exact Bool.and_eq_true_iff.mpr ⟨hconsequent, rfl⟩
  | some a =>
    cases a with
    | body s =>
      cases s with
      | ifStmt test' consequent' alternate' =>
        -- a chain, which one of two rules is for
        have hconsequent : consequent.isBlock = true := by
          cases alternate' <;> exact isBlock_of_braced (ifStmt.inj h).2.1
        exact isNormal_chain hconsequent (.inr rfl)
      | _ =>
        have hconsequent := isBlock_of_braced (ifStmt.inj h).2.1
        have halternate := isBlock_of_braced (some.inj (ifStmt.inj h).2.2)
        exact isNormal_chain hconsequent (.inl halternate)

/-- A statement that is left alone by all rules is in normal form. -/
theorem isNormal_of_simplified {s : Stmt} (hne : ∀ inner, s ≠ .sequence inner)
    (h : simplified all s = s) : s.isNormalStmt = true := by
  cases s with
  | sequence inner => exact absurd rfl (hne inner)
  | exprStmt e => exact congrArg (!·) (isNormal_exprStmt h)
  | ifStmt test consequent alternate => exact isNormal_ifStmt h
  | whileStmt test inner => exact isBlock_of_braced (whileStmt.inj h).2
  | doWhile test inner => exact isBlock_of_braced (doWhile.inj h).2
  | forStmt init test step inner =>
    have hinner : inner.braced = inner := by
      cases init <;> cases test <;> cases step <;> exact (forStmt.inj h).2.2.2
    exact isBlock_of_braced hinner
  | forIn left right inner => exact isBlock_of_braced (forIn.inj h).2.2
  | forOf isAwait left right inner =>
    cases isAwait with
    | true => rfl
    | false => exact isBlock_of_braced (forOf.inj h).2.2.2
  | _ => rfl

/-- An expression is in normal form if no rule recognizes it. -/
theorem isNormal_expr_iff {e : Expr} : isNormal .expr e = true ↔ spelled all e = e := by
  rw [spelled_eq_self_iff]
  constructor
  · intro h b _
    have hconstants := List.all_eq_true.mp h
    rw [Option.eq_none_iff_forall_not_mem]
    intro written hwritten
    obtain ⟨found, hconstant, hsame⟩ := Pass.spelling?_eq_some.mp hwritten
    have hfound : found ∈ shortConstants := by
      cases b <;> cases hconstant <;> decide
    have := hconstants found hfound
    rw [hsame] at this
    cases this
  · intro h
    refine List.all_eq_true.mpr fun found hfound => ?_
    obtain ⟨b, written, hconstant⟩ : ∃ b written, constant? b = Option.some (found, written) := by
      simp only [shortConstants, List.mem_cons, List.not_mem_nil, or_false] at hfound
      rcases hfound with rfl | rfl | rfl
      · exact ⟨notOne, _, rfl⟩
      · exact ⟨notZero, _, rfl⟩
      · exact ⟨voidZero, _, rfl⟩
    cases hsame : found.same e with
    | false => rfl
    | true =>
      have hwritten := Pass.spelling?_eq_some.mpr ⟨found, hconstant, hsame⟩
      rw [h b (mem_all b)] at hwritten
      cases hwritten

theorem isNormal_of_calm {c : Category} {t : Tree c} (h : Calm all c t) : isNormal c t = true := by
  cases c with
  | stmt => exact isNormal_of_simplified h.1 h.2
  | expr => exact isNormal_expr_iff.mpr h
  | _ => rfl

theorem Settled.normal {c : Category} {t : Tree c} (h : Settled all t) : t.Normal :=
  fun q hq => isNormal_of_calm (h q hq)

end Builtin

/-! ## Renamed phrases -/

namespace ScopeGraph

open Tree

variable {g : ScopeGraph}

theorem packsStatements_renamed (e : Expr) :
    (g.renamed e).packsStatements = e.packsStatements := by
  cases e with
  | access computed isOptional target prop => cases computed <;> rfl
  | binary op left right => cases op <;> rfl
  | _ => rfl

theorem isBlock_renamed (b : Tree .body) : (g.renamed b).isBlock = b.isBlock := by
  cases b with
  | body s => cases s <;> rfl

theorem isIf_renamed (b : Tree .body) : (g.renamed b).isIf = b.isIf := by
  cases b with
  | body s => cases s <;> rfl

theorem isNormalStmt_renamed (s : Stmt) : (g.renamed s).isNormalStmt = s.isNormalStmt := by
  cases s with
  | exprStmt e => exact congrArg (!·) (packsStatements_renamed e)
  | ifStmt test consequent alternate =>
    cases alternate with
    | none => exact congrArg (· && true) (isBlock_renamed consequent)
    | some a =>
      show ((g.renamed consequent).isBlock && ((g.renamed a).isBlock || (g.renamed a).isIf)) = _
      rw [isBlock_renamed, isBlock_renamed, isIf_renamed]
      rfl
  | whileStmt test inner => exact isBlock_renamed inner
  | doWhile test inner => exact isBlock_renamed inner
  | forStmt init test step inner => exact isBlock_renamed inner
  | forIn left right inner => exact isBlock_renamed inner
  | forOf isAwait left right inner => exact congrArg (isAwait || ·) (isBlock_renamed inner)
  | _ => rfl

theorem trait_renamed (e : Expr) : Builtin.trait (g.renamed e) = Builtin.trait e := by
  cases e with
  | access computed isOptional target prop => cases computed <;> rfl
  | binary op left right => cases op <;> rfl
  | literal v => cases v <;> rfl
  | _ => rfl

theorem isNormal_renamed {c : Category} {t : Tree c} (h : isNormal c t = true) :
    isNormal c (g.renamed t) = true := by
  cases c with
  | stmt => exact (isNormalStmt_renamed t).trans h
  | expr =>
    rw [Builtin.isNormal_expr_iff, Builtin.spelled_eq_self_iff] at h ⊢
    intro b hb
    cases t with
    | unary op arg => exact (Builtin.spelling?_unary b op (trait_renamed arg)).trans (h b hb)
    | access computed isOptional target prop => cases computed <;> exact Builtin.spelling?_eq_none nofun
    | _ => exact Builtin.spelling?_eq_none nofun
  | _ => rfl

theorem normal_name (n : Name) : n.Normal := by
  cases n <;> exact normal_iff.mpr ⟨rfl, nofun⟩

/-- A shorthand pattern that is written out is in normal form if the value is. -/
theorem normal_expandBinder (key : String) (ident : Name) {value : Tree (.option .expr)}
    (h : value.Normal) : (expandBinder key (.shortBinder ident value)).Normal := by
  have hkey : (nameKey key).Normal := normal_of_parts rfl each_nil
  have hbinder : (nameBinder ident).Normal :=
    normal_of_parts rfl (each_cons (normal_name ident) each_nil)
  cases value with
  | none => exact normal_of_parts rfl (each_cons hkey (each_cons hbinder each_nil))
  | some value =>
    have hvalue : value.Normal := (normal_iff.mp h).2 _ List.mem_cons_self
    have hdefault : (defaultBinder (nameBinder ident) value).Normal :=
      normal_of_parts rfl (each_cons hbinder (each_cons hvalue each_nil))
    exact normal_of_parts rfl (each_cons hkey (each_cons hdefault each_nil))

/-- Renames keep the normal form. -/
theorem normal_renamed {c : Category} {t : Tree c} (h : t.Normal) : (g.renamed t).Normal := by
  induction t using induction_on_parts with
  | step c t ih =>
    obtain ⟨hself, hparts⟩ := normal_iff.mp h
    replace ih : ∀ p ∈ t.visited, (g.renamed p.2).Normal := fun p hp =>
      ih p (mem_parts_of_visited hp) (hparts p hp)
    cases hshort : isShort t with
    | false =>
      refine normal_iff.mpr ⟨isNormal_renamed hself, fun q hq => ?_⟩
      rw [visited_renamed hshort] at hq
      obtain ⟨p, hp, rfl⟩ := List.mem_map.mp hq
      exact ih p hp
    | true =>
      -- what is written out has forms that are in normal form anyway
      cases t with
      | shorthand ident =>
        have hname := normal_name (g.renameName ident)
        rw [renamed_shorthand]
        cases g.renamedBinding? ident with
        | none => exact normal_of_parts rfl (each_cons hname each_nil)
        | some b =>
          have hkey : (nameKey b.declaredName).Normal := normal_of_parts rfl each_nil
          have hident : (identExpr (g.renameName ident)).Normal :=
            normal_of_parts rfl (each_cons hname each_nil)
          exact normal_of_parts rfl (each_cons hkey (each_cons hident each_nil))
      | shortBinder ident value =>
        have hname := normal_name (g.renameName ident)
        have hvalue : (g.renamed value).Normal := ih _ (List.mem_cons_of_mem _ List.mem_cons_self)
        rw [renamed_shortBinder]
        cases g.renamedBinding? ident with
        | none => exact normal_of_parts rfl (each_cons hname (each_cons hvalue each_nil))
        | some b => exact normal_expandBinder b.declaredName _ hvalue
      | _ => cases hshort

end ScopeGraph

/-! ## Passes -/

namespace RuleTable

/-- **One pass with all built-in rules makes the normal form.** A pass over a program without holes
comes to an end: if it stops before, then at an interop helper whose name is bound nowhere. If it does
not stop, every phrase that a walk reaches in its result is in normal form: there is no sequence, no
statement that is a comma expression, `&&`, `||` or `?:`, and no `!0`, `!1` or `void 0`; and the
branches of every `if` are blocks, or an `if` after `else`, and the bodies of all loops but `for await`
are blocks. -/
theorem normal_pass {full table : RuleTable} (hfull : builtin = .ok full)
    (hrules : table.rules = full.rules) {p : Program} (hp : p.body.holes = []) :
    (∀ e, (table.pass p).2 = .error e → ∃ name, e = .undeclared name) ∧
      ∀ stats, (table.pass p).2 = .ok stats → (table.pass p).1.body.Normal := by
  have htable : table.Offers Builtin.all true := by
    rw [builtin_eq] at hfull
    cases hfull
    exact hrules
  have hcoherent : Builtin.Coherent Builtin.all := by decide
  rcases Pass.pass_cases htable (Builtin.admits_becomes hcoherent) hp with
    ⟨body, s, -, ⟨hsettled, -⟩, hpass⟩ | ⟨body, e, ⟨-, name, rfl⟩, hpass⟩
  · rw [hpass]
    refine ⟨nofun, fun stats _ => ?_⟩
    rw [ScopeGraph.fst_applyRenames]
    exact ScopeGraph.normal_renamed (Builtin.Settled.normal hsettled)
  · rw [hpass]
    refine ⟨?_, nofun⟩
    rintro _ ⟨⟩
    exact ⟨name, rfl⟩

/-- `if (a) b, c; else for (;;) x && !0;` -/
def packedUse : Program where
  body := Tree.blockOf [
    .ifStmt (.identExpr (.ident "a" (some 4)))
      (.body (.exprStmt (.comma (.ofList [.identExpr (.ident "b" (some 7)),
        .identExpr (.ident "c" (some 10))]))))
      (.some (.body (.forStmt .none .none .none (.body (.exprStmt
        (.binary .and (.identExpr (.ident "x" (some 27))) (.unary .not (.literal (.number ⟨0⟩)))))))))]

/-- The split and the four rules that are needed leave nothing to be done. -/
theorem normal_pass_packedUse :
    packedUse.body.holes = [] ∧ ¬packedUse.body.Normal ∧
      ∃ table stats, builtin = .ok table ∧ (table.pass packedUse).2 = .ok stats ∧
        (table.pass packedUse).1.body.Normal := by
  have hholes : packedUse.body.holes = [] := by decide +kernel
  have hbuiltin := builtin_eq
  generalize htable : ({ rules := Builtin.all.map Builtin.rule ++ [Builtin.interopRule] } : RuleTable) =
    table at hbuiltin
  have hok : (table.pass packedUse).2.isOk = true := by
    rw [← htable]
    decide +kernel
  have hnormal := (normal_pass hbuiltin rfl hholes).2
  cases hpass : (table.pass packedUse).2 with
  | error e =>
    rw [hpass] at hok
    cases hok
  | ok stats => exact ⟨hholes, by decide +kernel, table, stats, hbuiltin, hpass, hnormal stats hpass⟩

end RuleTable

end Unminify
