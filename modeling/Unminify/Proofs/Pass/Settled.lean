import Unminify.Proofs.Pass.Walk

/-!
# Settled phrases

After a walk with built-in rules, no step has anything left to do: every phrase that the walk reaches
in its result is *calm*, that is, splitting and the rules would leave it as it is. So one walk is
enough, although each phrase is matched only once (`admits_becomes`).

That needs one condition on the rules, `Coherent`. A rule may make an `if` out of a branch of an `if`
around it, which has been matched already. If the branch was put in braces nothing is lost; without
that rule, there must be none for chains of `if`s that such a branch would now begin.
-/

namespace Unminify

/-- Whether a body is a block. -/
def Tree.isBlock : Tree .body → Bool
  | .body (.blockStmt _) => true
  | _ => false

namespace Builtin

variable (bs : List Builtin)

/-- Whether an `if` that takes the place of a branch is of no concern to the rules for the `if` around
it. -/
def Coherent : Prop :=
  ifElse ∈ bs ∨
    ¬((andStatement ∈ bs ∨ orStatement ∈ bs) ∧ elseIf ∈ bs) ∧ ¬(ternaryStatement ∈ bs ∧ elseIfElse ∈ bs)

instance : Decidable (Coherent bs) :=
  inferInstanceAs (Decidable (_ ∨ ¬((_ ∨ _) ∧ _) ∧ ¬(_ ∧ _)))

/-- A phrase that no step of a pass would change. -/
def Calm : (c : Category) → Tree c → Prop
  | .stmt, s => (∀ inner, s ≠ .sequence inner) ∧ simplified bs s = s
  | .expr, e => spelled bs e = e
  | _, _ => True

/-- No step would change a phrase that a walk reaches. -/
def Settled {c : Category} (t : Tree c) : Prop := ∀ q ∈ t.reached, Calm bs q.1 q.2

/-- What a walk makes of a phrase: a settled one, where a statement may be a sequence for the list
around it. -/
def Resettled : (c : Category) → Tree c → Prop
  | .stmt, u => Settled bs u ∨ ∃ inner, u = .sequence inner ∧ Settled bs inner
  | .list c, u => ∀ t ∈ u.toList, Resettled c t
  | .option c, u => ∀ t ∈ u.toOption, Resettled c t
  | _, u => Settled bs u

variable {bs}

theorem settled_iff {c : Category} {t : Tree c} :
    Settled bs t ↔ Calm bs c t ∧ ∀ p ∈ t.visited, Settled bs p.2 :=
  Tree.forall_reached

theorem settled_of_parts {c : Category} {t : Tree c} (h : Calm bs c t)
    (hparts : Tree.Each (fun _ t => Settled bs t) t.visited) : Settled bs t :=
  settled_iff.mpr ⟨h, hparts.of_mem⟩

theorem Settled.reached {c : Category} {t : Tree c} (h : Settled bs t) {q : Phrase}
    (hq : q ∈ t.reached) : Settled bs q.2 :=
  fun r hr => h r (Tree.reached_trans hq hr)

theorem Settled.ne_sequence {s : Stmt} (h : Settled bs s) (inner : Block) : s ≠ .sequence inner :=
  (settled_iff.mp h).1.1 inner

/-! ## Lists of settled phrases -/

/-- Whether a phrase of a category cannot be a sequence, or a list of sequences. -/
def tame : Category → Bool
  | .stmt => false
  | .list c => tame c
  | .option c => tame c
  | _ => true

theorem settled_ofList {c : Category} {ts : List (Tree c)} (h : ∀ t ∈ ts, Settled bs t) :
    Settled bs (Tree.ofList ts) := by
  induction ts with
  | nil => exact settled_of_parts trivial Tree.each_nil
  | cons t ts ih =>
    have hts := ih fun t ht => h t (List.mem_cons_of_mem _ ht)
    exact settled_of_parts trivial
      (Tree.each_cons (h t List.mem_cons_self) (Tree.each_cons hts Tree.each_nil))

/-- Where no sequence can be left, what a walk makes of a phrase is settled. -/
theorem Resettled.settled {c : Category} (hc : tame c = true) {t : Tree c} (h : Resettled bs c t) :
    Settled bs t := by
  induction c with
  | stmt => cases hc
  | list c ih =>
    rw [← Tree.ofList_toList t]
    exact settled_ofList fun t ht => ih hc (h t ht)
  | option c ih =>
    cases t with
    | none => exact settled_of_parts trivial Tree.each_nil
    | some t => exact settled_of_parts trivial (Tree.each_cons (ih hc (h t rfl)) Tree.each_nil)
  | _ => exact h

/-- Splicing leaves settled statements. -/
theorem settled_splice {ss : List Stmt} (h : ∀ s ∈ ss, Resettled bs .stmt s) :
    ∀ s ∈ Tree.splice ss, Settled bs s := by
  induction ss using Tree.splice.induct with
  | case1 =>
    intro s hs
    rw [Tree.splice] at hs
    cases hs
  | case2 inner rest ih =>
    rw [Tree.splice]
    refine ih fun s hs => ?_
    rcases List.mem_append.mp hs with hs | hs
    · rcases h _ List.mem_cons_self with hsettled | ⟨inner', heq, hinner⟩
      · exact absurd rfl (hsettled.ne_sequence inner)
      · cases heq
        exact .inl (hinner.reached (Tree.mem_reached_of_statements hs))
    · exact h s (List.mem_cons_of_mem _ hs)
  | case3 s rest hne ih =>
    intro s' hs'
    rw [Tree.splice] at hs'
    · rcases List.mem_cons.mp hs' with rfl | hs'
      · refine (h s' List.mem_cons_self).resolve_right ?_
        rintro ⟨inner, rfl, -⟩
        exact hne inner rfl
      · exact ih (fun s hs => h s (List.mem_cons_of_mem _ hs)) s' hs'
    · exact hne

/-! ## Likeness -/

/-- What rules see of an expression inside a statement or behind an operator. -/
inductive Trait
  | sequence | conjunction | disjunction | choice
  | number (value : Binary64)
  | other

/-- What rules see of an expression. -/
def trait : Expr → Trait
  | .comma _ => .sequence
  | .binary .and _ _ => .conjunction
  | .binary .or _ _ => .disjunction
  | .conditional _ _ _ => .choice
  | .literal (.number x) => .number x
  | _ => .other

variable (bs)

/-- How a phrase and what a walk makes of it are alike, as far as the rules for the phrase around them
see it. -/
def Alike : (c : Category) → Tree c → Tree c → Prop
  | .expr, e, u => trait u = trait e
  | .stmt, s, u => u.fork = (simplified bs s).fork ∧
      ((Tree.body s).isBlock = true → (Tree.body u).isBlock = true)
  | .body, b, u => u.bodyStmt.fork = (simplified bs b.bodyStmt).fork ∧
      (b.isBlock = true → u.isBlock = true)
  | .option c, t, u =>
    match t.toOption, u.toOption with
    | none, none => True
    | some t, some u => Alike c t u
    | _, _ => False
  | _, _, _ => True

/-- What a walk makes of a phrase. -/
def Becomes (c : Category) (t u : Tree c) : Prop := Resettled bs c u ∧ Alike bs c t u

variable {bs}

theorem trait_rebuild (e : Expr) (us : List Phrase) : trait (e.rebuild us) = trait e := by
  cases e with
  | binary op left right => cases op <;> rfl
  | _ => rfl

theorem trait_spelled (e : Expr) : trait (spelled bs e) = trait e := by
  rw [spelled]
  cases hfind : bs.findSome? (·.spelling? e) with
  | none => rfl
  | some written =>
    obtain ⟨b, -, hb⟩ := List.exists_of_findSome?_eq_some hfind
    obtain ⟨found, hconstant, hsame⟩ := Pass.spelling?_eq_some.mp hb
    have hform := (Tree.same_iff.mp hsame).1
    cases b <;> cases hconstant <;> cases e <;> first | rfl | exact absurd hform Bool.false_ne_true

/-! ## Expressions -/

theorem same_number {x : Binary64} (arg : Expr) :
    (Tree.literal (.number x)).same arg =
      match trait arg with
      | .number y => x.equal y
      | _ => false := by
  cases arg with
  | literal v => cases v <;> rfl
  | binary op left right => cases op <;> rfl
  | _ => rfl

theorem same_unary {op op' : UnaryOp} {arg arg' : Expr} :
    (Tree.unary op arg).same (.unary op' arg') = true ↔ op = op' ∧ arg.same arg' = true := by
  rw [Tree.same_iff, Tree.sameForm_iff]
  constructor
  · rintro ⟨⟨-, hop⟩, hparts⟩
    exact ⟨beq_iff_eq.mp hop, (Tree.related_cons.mp hparts).1⟩
  · rintro ⟨rfl, harg⟩
    exact ⟨⟨rfl, beq_self_eq_true op⟩, .cons harg .nil⟩

/-- Whether an operator and its operand are a constant can be seen from the trait of the operand. -/
theorem spelling?_unary (b : Builtin) (op : UnaryOp) {arg arg' : Expr} (h : trait arg' = trait arg) :
    b.spelling? (.unary op arg') = b.spelling? (.unary op arg) := by
  have hsame : ∀ {op' : UnaryOp} {x : Binary64},
      (Tree.unary op' (.literal (.number x))).same (.unary op arg') =
        (Tree.unary op' (.literal (.number x))).same (.unary op arg) := by
    intro op' x
    rw [Bool.eq_iff_iff, same_unary, same_unary, same_number, same_number, h]
  rw [spelling?, spelling?]
  cases b <;> simp only [constant?, hsame]

theorem spelling?_eq_none {b : Builtin} {e : Expr} (h : ∀ op arg, e ≠ .unary op arg) :
    b.spelling? e = none := by
  rw [Option.eq_none_iff_forall_not_mem]
  intro written hwritten
  obtain ⟨found, hconstant, hsame⟩ := Pass.spelling?_eq_some.mp hwritten
  have hform := (Tree.same_iff.mp hsame).1
  cases e with
  | unary op arg => exact h op arg rfl
  | _ => cases b <;> cases hconstant <;> exact absurd hform Bool.false_ne_true

theorem spelled_eq_self_iff {e : Expr} : spelled bs e = e ↔ ∀ b ∈ bs, b.spelling? e = none := by
  rw [spelled, ← List.findSome?_eq_none_iff]
  constructor
  · intro h
    cases hfind : bs.findSome? (·.spelling? e) with
    | none => rfl
    | some written =>
      rw [hfind] at h
      obtain rfl : written = e := h
      obtain ⟨b, -, hb⟩ := List.exists_of_findSome?_eq_some hfind
      have hne := Pass.same_spelling? hb
      obtain ⟨found, hconstant, -⟩ := Pass.spelling?_eq_some.mp hb
      cases b <;> cases hconstant <;> exact absurd hne Bool.noConfusion
  · intro h
    rw [h]
    rfl

/-- What is written for a constant is no constant. -/
theorem spelled_spelled (e : Expr) : spelled bs (spelled bs e) = spelled bs e := by
  rw [spelled_eq_self_iff]
  intro b hb
  rw [spelled]
  cases hfind : bs.findSome? (·.spelling? e) with
  | none => exact List.findSome?_eq_none_iff.mp hfind b hb
  | some written =>
    obtain ⟨b', -, hb'⟩ := List.exists_of_findSome?_eq_some hfind
    obtain ⟨found, hconstant, -⟩ := Pass.spelling?_eq_some.mp hb'
    cases b' <;> cases hconstant <;> exact spelling?_eq_none (by intro op arg h; cases h)

theorem spelled_rebuild {e : Expr} {us : List Phrase}
    (h : Tree.Related (Becomes bs) (spelled bs e).visited us) :
    spelled bs ((spelled bs e).rebuild us) = (spelled bs e).rebuild us := by
  have hcalm : ∀ b ∈ bs, b.spelling? (spelled bs e) = none :=
    spelled_eq_self_iff.mp (spelled_spelled e)
  rw [spelled_eq_self_iff]
  intro b hb
  generalize spelled bs e = e at h hcalm
  cases e with
  | unary op arg =>
    cases h with
    | cons harg hnil =>
      cases hnil
      rename_i arg'
      exact (spelling?_unary b op harg.2).trans (hcalm b hb)
  | _ => exact spelling?_eq_none nofun

/-! ## Statements -/

theorem isBlock_braced (b : Tree .body) : b.braced.isBlock = true := by
  cases b with
  | body s => cases s <;> rfl

theorem exists_of_isBlock {b : Tree .body} (h : b.isBlock = true) :
    ∃ inner, b = .body (.blockStmt inner) := by
  cases b with
  | body s => cases s <;> first | exact ⟨_, rfl⟩ | cases h

theorem braced_of_isBlock {b : Tree .body} (h : b.isBlock = true) : b.braced = b := by
  obtain ⟨inner, rfl⟩ := exists_of_isBlock h
  rfl

theorem mem_of_pick {s : Stmt} {b : Builtin} (h : pick bs s = some b) : b ∈ bs :=
  List.mem_of_find?_eq_some h

theorem pick_of_silhouette {s u : Stmt} (h : u.silhouette = s.silhouette) : pick bs u = pick bs s := by
  rw [pick, pick, h]

theorem silhouette_exprStmt (e : Expr) :
    (Tree.exprStmt e).silhouette =
      match trait e with
      | .conjunction => .conjunction
      | .disjunction => .disjunction
      | .choice => .choice
      | _ => .other := by
  cases e with
  | binary op left right => cases op <;> rfl
  | literal v => cases v <;> rfl
  | _ => rfl

/-- A statement with the silhouette `other` is accepted by no rule. -/
theorem pick_of_other {s : Stmt} (h : s.silhouette = .other) : pick bs s = none := by
  rw [pick, h, List.find?_eq_none]
  intro b _
  cases b <;> exact Bool.false_ne_true

theorem reshaped_of_pick_none {s : Stmt} (h : pick bs s = none) : reshaped bs s = s := by
  rw [reshaped, h]

/-- Nothing is done at a statement whose silhouette no rule accepts. -/
theorem simplified_of_other {s : Stmt} (hne : ∀ parts, s ≠ .exprStmt (.comma parts))
    (h : s.silhouette = .other) : simplified bs s = s :=
  (Pass.simplified_of_ne hne).trans (reshaped_of_pick_none (pick_of_other h))

theorem reshaped_of_pick {s : Stmt} {b : Builtin} (h : pick bs s = some b) :
    reshaped bs s = b.recast s := by
  rw [reshaped, h]

/-- A statement that is left alone by the rule that is picked for it. -/
theorem reshaped_eq_self {s : Stmt} (h : ∀ b, pick bs s = some b → b.recast s = s) :
    reshaped bs s = s := by
  rw [reshaped]
  split
  · rename_i b hb
    exact h b hb
  · rfl

theorem recast_ifStmt_blocks (b : Builtin) (test : Expr) {consequent : Tree .body}
    {alternate : Tree (.option .body)} (hconsequent : consequent.isBlock = true)
    (halternate : ∀ a ∈ alternate.toOption, a.isBlock = true) :
    b.recast (.ifStmt test consequent alternate) = .ifStmt test consequent alternate := by
  cases alternate with
  | none => exact congrArg (Tree.ifStmt test · _) (braced_of_isBlock hconsequent)
  | some a =>
    rw [Pass.recast_ifStmt_some, braced_of_isBlock hconsequent, braced_of_isBlock (halternate a rfl),
      ite_self]

/-- Only a branch that becomes an `if` changes its fork, and a rule did that. -/
theorem fork_simplified (s : Stmt) :
    (simplified bs s).fork = s.fork ∨ s.fork = none ∧
      ((simplified bs s).fork = some false ∧ (andStatement ∈ bs ∨ orStatement ∈ bs) ∨
        (simplified bs s).fork = some true ∧ ternaryStatement ∈ bs) := by
  by_cases hcomma : ∃ parts, s = .exprStmt (.comma parts)
  · obtain ⟨parts, rfl⟩ := hcomma
    exact .inl rfl
  · rw [Pass.simplified_of_ne fun parts h => hcomma ⟨parts, h⟩]
    cases hb : pick bs s with
    | none => exact .inl (congrArg Tree.fork (reshaped_of_pick_none hb))
    | some b =>
      rw [reshaped_of_pick hb]
      have haccepts := Pass.accepts_of_pick hb
      have hmem := mem_of_pick hb
      cases s with
      | exprStmt e =>
        cases e with
        | binary op left right =>
          cases op with
          | and => cases b <;> first | exact .inr ⟨rfl, .inl ⟨rfl, .inl hmem⟩⟩ | cases haccepts
          | or => cases b <;> first | exact .inr ⟨rfl, .inl ⟨rfl, .inr hmem⟩⟩ | cases haccepts
          | _ => exact .inl rfl
        | conditional test left right =>
          cases b <;> first | exact .inr ⟨rfl, .inr ⟨rfl, hmem⟩⟩ | cases haccepts
        | _ => exact .inl rfl
      | ifStmt test consequent alternate =>
        cases alternate with
        | none => exact .inl rfl
        | some alternate =>
          rw [Pass.recast_ifStmt_some]
          exact .inl rfl
      | _ => exact .inl rfl

theorem isSome_of_alike {c : Category} {t u : Tree (.option c)} (h : Alike bs _ t u) :
    u.toOption.isSome = t.toOption.isSome := by
  cases t <;> cases u <;> first | rfl | cases h

theorem fork_rebuild {s : Stmt} {us : List Phrase} (h : Tree.Related (Becomes bs) s.visited us) :
    (s.rebuild us).fork = s.fork := by
  cases s with
  | ifStmt test consequent alternate =>
    obtain ⟨test', _, rfl, -, h⟩ := Tree.exists_of_related_cons h
    obtain ⟨consequent', _, rfl, -, h⟩ := Tree.exists_of_related_cons h
    obtain ⟨alternate', _, rfl, halternate, -⟩ := Tree.exists_of_related_cons h
    exact congrArg some (isSome_of_alike halternate.2)
  | _ => rfl

/-- A statement keeps its silhouette when its parts change, unless a branch becomes an `if`. -/
theorem silhouette_rebuild {s : Stmt} {us : List Phrase}
    (h : Tree.Related (Becomes bs) s.visited us)
    (hfork : ∀ test consequent alternate, s = .ifStmt test consequent (.some alternate) →
      (simplified bs alternate.bodyStmt).fork = alternate.bodyStmt.fork) :
    (s.rebuild us).silhouette = s.silhouette := by
  cases s with
  | exprStmt e =>
    obtain ⟨u, _, rfl, ⟨-, htrait⟩, -⟩ := Tree.exists_of_related_cons h
    show (Tree.exprStmt u).silhouette = (Tree.exprStmt e).silhouette
    rw [silhouette_exprStmt, silhouette_exprStmt, show trait u = trait e from htrait]
  | ifStmt test consequent alternate =>
    obtain ⟨test', _, rfl, -, h⟩ := Tree.exists_of_related_cons h
    obtain ⟨consequent', _, rfl, -, h⟩ := Tree.exists_of_related_cons h
    obtain ⟨alternate', _, rfl, ⟨-, halternate⟩, -⟩ := Tree.exists_of_related_cons h
    cases alternate with
    | none =>
      cases alternate' with
      | none => rfl
      | some _ => cases halternate
    | some a =>
      cases alternate' with
      | none => cases halternate
      | some a' =>
        have ha : a'.bodyStmt.fork = a.bodyStmt.fork :=
          halternate.1.trans (hfork test consequent a rfl)
        exact congrArg (fun f => Silhouette.branch (some f)) ha
  | forStmt init test step inner =>
    obtain ⟨init', _, rfl, hinit, h⟩ := Tree.exists_of_related_cons h
    obtain ⟨test', _, rfl, htest, h⟩ := Tree.exists_of_related_cons h
    obtain ⟨step', _, rfl, hstep, -⟩ := Tree.exists_of_related_cons h
    show Silhouette.forLoop init'.toOption.isSome test'.toOption.isSome step'.toOption.isSome = _
    rw [isSome_of_alike hinit.2, isSome_of_alike htest.2, isSome_of_alike hstep.2]
    rfl
  | forOf isAwait left right inner => cases isAwait <;> rfl
  | _ => rfl

/-- Where no rule was picked, none is picked when the parts have changed. -/
theorem pick_rebuild_of_none (hcoherent : Coherent bs) {s : Stmt} {us : List Phrase}
    (h : Tree.Related (Becomes bs) s.visited us) (hpick : pick bs s = none) :
    pick bs (s.rebuild us) = none := by
  by_cases hfork : ∃ test consequent alternate, s = .ifStmt test consequent (.some alternate) ∧
      (simplified bs alternate.bodyStmt).fork ≠ alternate.bodyStmt.fork
  · obtain ⟨test, consequent, alternate, rfl, hchanged⟩ := hfork
    -- the rule for the other branch is missing, so the rules for chains matter
    have hmissing : ifElse ∉ bs := fun hmem =>
      List.find?_eq_none.mp hpick ifElse hmem rfl
    obtain ⟨hplain, hchain⟩ := hcoherent.resolve_left hmissing
    obtain ⟨test', _, rfl, -, h⟩ := Tree.exists_of_related_cons h
    obtain ⟨consequent', _, rfl, -, h⟩ := Tree.exists_of_related_cons h
    obtain ⟨alternate', _, rfl, ⟨-, halternate⟩, -⟩ := Tree.exists_of_related_cons h
    cases alternate' with
    | none => cases halternate
    | some alternate' =>
      have hsilhouette : (Tree.ifStmt test' consequent' (.some alternate')).silhouette =
          .branch (some (simplified bs alternate.bodyStmt).fork) :=
        congrArg (fun f => Silhouette.branch (some f)) halternate.1
      show pick bs (.ifStmt test' consequent' (.some alternate')) = none
      rw [pick, hsilhouette, List.find?_eq_none]
      intro b hb haccepts
      rcases (fork_simplified alternate.bodyStmt).resolve_left hchanged with ⟨-, ⟨hf, hcause⟩ | ⟨hf, hcause⟩⟩
      · rw [hf] at haccepts
        cases b with
        | elseIf => exact hplain ⟨hcause, hb⟩
        | ifElse => exact hmissing hb
        | _ => cases haccepts
      · rw [hf] at haccepts
        cases b with
        | elseIfElse => exact hchain ⟨hcause, hb⟩
        | ifElse => exact hmissing hb
        | _ => cases haccepts
  · refine (pick_of_silhouette (silhouette_rebuild h ?_)).trans hpick
    intro test consequent alternate hs
    exact Decidable.of_not_not fun hne => hfork ⟨test, consequent, alternate, hs, hne⟩

/-- The first `if` of a chain stays as it is when its parts have changed. -/
theorem reshaped_rebuild_chain {test : Expr} {consequent alternate : Tree .body} {b : Builtin}
    (hpick : pick bs (.ifStmt test consequent (.some alternate)) = some b) (hb : b ≠ ifElse)
    {us : List Phrase}
    (h : Tree.Related (Becomes bs) (Tree.ifStmt test consequent.braced (.some alternate)).visited us) :
    reshaped bs ((Tree.ifStmt test consequent.braced (.some alternate)).rebuild us) =
      (Tree.ifStmt test consequent.braced (.some alternate)).rebuild us := by
  have haccepts : b.accepts (.branch (some alternate.bodyStmt.fork)) = true :=
    Pass.accepts_of_pick hpick
  have hfork : (simplified bs alternate.bodyStmt).fork = alternate.bodyStmt.fork := by
    refine (fork_simplified alternate.bodyStmt).resolve_right ?_
    rintro ⟨hnone, -⟩
    rw [hnone] at haccepts
    cases b with
    | ifElse => exact hb rfl
    | _ => cases haccepts
  have hsilhouette := silhouette_rebuild h (by rintro _ _ _ ⟨⟩; exact hfork)
  obtain ⟨test', _, rfl, -, h⟩ := Tree.exists_of_related_cons h
  obtain ⟨consequent', _, rfl, ⟨-, -, hconsequent⟩, h⟩ := Tree.exists_of_related_cons h
  obtain ⟨alternate', _, rfl, ⟨-, halternate⟩, -⟩ := Tree.exists_of_related_cons h
  refine reshaped_eq_self fun b' hb' => ?_
  obtain rfl : b = b' := Option.some.inj (hpick.symm.trans ((pick_of_silhouette hsilhouette).symm.trans hb'))
  cases alternate' with
  | none => cases halternate
  | some alternate' =>
    refine (Pass.recast_ifStmt_some b test' consequent' alternate').trans ?_
    rw [if_neg hb, braced_of_isBlock (hconsequent (isBlock_braced consequent))]
    rfl

/-- An `if` whose branches are blocks stays as it is when its parts have changed. -/
theorem reshaped_rebuild_ifStmt {test : Expr} {consequent : Tree .body}
    {alternate : Tree (.option .body)} {us : List Phrase} (hconsequent : consequent.isBlock = true)
    (halternate : ∀ a ∈ alternate.toOption, a.isBlock = true)
    (h : Tree.Related (Becomes bs) (Tree.ifStmt test consequent alternate).visited us) :
    reshaped bs ((Tree.ifStmt test consequent alternate).rebuild us) =
      (Tree.ifStmt test consequent alternate).rebuild us := by
  obtain ⟨test', _, rfl, -, h⟩ := Tree.exists_of_related_cons h
  obtain ⟨consequent', _, rfl, ⟨-, -, hconsequent'⟩, h⟩ := Tree.exists_of_related_cons h
  obtain ⟨alternate', _, rfl, ⟨-, halike⟩, -⟩ := Tree.exists_of_related_cons h
  refine reshaped_eq_self fun b _ => recast_ifStmt_blocks b test' (hconsequent' hconsequent) ?_
  cases alternate with
  | none =>
    cases alternate' with
    | none => exact fun a ha => (nomatch ha)
    | some _ => cases halike
  | some a =>
    cases alternate' with
    | none => cases halike
    | some a' =>
      rintro _ ⟨⟩
      exact halike.2 (halternate a rfl)

/-- What was put in braces is still in braces when it has changed. -/
theorem braced_of_becomes {b b' : Tree .body} (h : Becomes bs .body b.braced b') : b'.braced = b' :=
  braced_of_isBlock (h.2.2 (isBlock_braced b))

/-- What a rule made of a statement stays as it is when its parts have changed. -/
theorem reshaped_rebuild_recast {s : Stmt} {b : Builtin} (hpick : pick bs s = some b)
    {us : List Phrase} (h : Tree.Related (Becomes bs) (b.recast s).visited us) :
    reshaped bs ((b.recast s).rebuild us) = (b.recast s).rebuild us := by
  have haccepts := Pass.accepts_of_pick hpick
  cases s with
  | exprStmt e =>
    cases e with
    | binary op left right =>
      cases op with
      | and => exact reshaped_rebuild_ifStmt rfl nofun h
      | or => exact reshaped_rebuild_ifStmt rfl nofun h
      | _ => exact absurd haccepts (not_accepts_other b)
    | conditional test left right =>
      refine reshaped_rebuild_ifStmt rfl ?_ h
      rintro _ ⟨⟩
      rfl
    | _ => exact absurd haccepts (not_accepts_other b)
  | ifStmt test consequent alternate =>
    cases alternate with
    | none => exact reshaped_rebuild_ifStmt (isBlock_braced consequent) nofun h
    | some alternate =>
      by_cases hb : b = ifElse
      · subst hb
        refine reshaped_rebuild_ifStmt (isBlock_braced consequent) ?_ h
        rintro _ ⟨⟩
        exact isBlock_braced alternate
      · rw [Pass.recast_ifStmt_some, if_neg hb] at h ⊢
        exact reshaped_rebuild_chain hpick hb h
  | whileStmt test inner =>
    obtain ⟨test', _, rfl, -, h⟩ := Tree.exists_of_related_cons h
    obtain ⟨inner', _, rfl, hinner, -⟩ := Tree.exists_of_related_cons h
    exact reshaped_eq_self fun b _ => congrArg (Tree.whileStmt test') (braced_of_becomes hinner)
  | doWhile test inner =>
    obtain ⟨test', _, rfl, -, h⟩ := Tree.exists_of_related_cons h
    obtain ⟨inner', _, rfl, hinner, -⟩ := Tree.exists_of_related_cons h
    exact reshaped_eq_self fun b _ => congrArg (Tree.doWhile test') (braced_of_becomes hinner)
  | forStmt init test step inner =>
    obtain ⟨init', _, rfl, -, h⟩ := Tree.exists_of_related_cons h
    obtain ⟨test', _, rfl, -, h⟩ := Tree.exists_of_related_cons h
    obtain ⟨step', _, rfl, -, h⟩ := Tree.exists_of_related_cons h
    obtain ⟨inner', _, rfl, hinner, -⟩ := Tree.exists_of_related_cons h
    exact reshaped_eq_self fun b _ => congrArg (Tree.forStmt init' test' step') (braced_of_becomes hinner)
  | forIn left right inner =>
    obtain ⟨left', _, rfl, -, h⟩ := Tree.exists_of_related_cons h
    obtain ⟨right', _, rfl, -, h⟩ := Tree.exists_of_related_cons h
    obtain ⟨inner', _, rfl, hinner, -⟩ := Tree.exists_of_related_cons h
    exact reshaped_eq_self fun b _ => congrArg (Tree.forIn left' right') (braced_of_becomes hinner)
  | forOf isAwait left right inner =>
    obtain ⟨left', _, rfl, -, h⟩ := Tree.exists_of_related_cons h
    obtain ⟨right', _, rfl, -, h⟩ := Tree.exists_of_related_cons h
    obtain ⟨inner', _, rfl, hinner, -⟩ := Tree.exists_of_related_cons h
    exact reshaped_eq_self fun b _ => congrArg (Tree.forOf isAwait left' right') (braced_of_becomes hinner)
  | _ => exact absurd haccepts (not_accepts_other b)

theorem recast_ne_exprStmt {b : Builtin} {s : Stmt} (h : b.accepts s.silhouette = true) (e : Expr) :
    b.recast s ≠ .exprStmt e := by
  cases s with
  | exprStmt e =>
    cases e with
    | binary op left right =>
      cases op with
      | and => exact nofun
      | or => exact nofun
      | _ => exact absurd h (not_accepts_other b)
    | conditional test left right => exact nofun
    | _ => exact absurd h (not_accepts_other b)
  | ifStmt test consequent alternate =>
    cases alternate with
    | none => exact nofun
    | some alternate =>
      rw [Pass.recast_ifStmt_some]
      exact nofun
  | _ => exact nofun

/-- No comma expression is left to be split, once the parts have changed. -/
theorem rebuild_ne_comma {s : Stmt} (hne : ∀ parts, s ≠ .exprStmt (.comma parts)) {us : List Phrase}
    (h : Tree.Related (Becomes bs) s.visited us) (parts : Tree (.list .expr)) :
    s.rebuild us ≠ .exprStmt (.comma parts) := by
  cases s with
  | exprStmt e =>
    obtain ⟨u, _, rfl, ⟨-, htrait⟩, -⟩ := Tree.exists_of_related_cons h
    intro heq
    obtain rfl : u = .comma parts := Tree.exprStmt.inj heq
    replace htrait : Trait.sequence = trait e := htrait
    cases e with
    | comma parts => exact hne parts rfl
    | binary op left right => cases op <;> cases htrait
    | literal v => cases v <;> cases htrait
    | _ => cases htrait
  | _ => exact nofun

/-- The step at a statement leaves nothing to do there. -/
theorem simplified_rebuild (hcoherent : Coherent bs) {s : Stmt}
    (hne : ∀ parts, s ≠ .exprStmt (.comma parts)) {us : List Phrase}
    (h : Tree.Related (Becomes bs) (simplified bs s).visited us) :
    simplified bs ((simplified bs s).rebuild us) = (simplified bs s).rebuild us := by
  rw [Pass.simplified_of_ne hne] at h ⊢
  cases hpick : pick bs s with
  | none =>
    rw [reshaped_of_pick_none hpick] at h ⊢
    rw [Pass.simplified_of_ne (rebuild_ne_comma hne h)]
    exact reshaped_of_pick_none (pick_rebuild_of_none hcoherent h hpick)
  | some b =>
    rw [reshaped_of_pick hpick] at h ⊢
    have hrecast := recast_ne_exprStmt (Pass.accepts_of_pick hpick)
    rw [Pass.simplified_of_ne (rebuild_ne_comma (fun parts => hrecast _) h)]
    exact reshaped_rebuild_recast hpick h

/-! ## The walk -/

/-- A rebuilt phrase is settled when nothing is to be done there and no sequence can be among its
parts. -/
theorem settled_rebuild {c : Category} {t : Tree c} {us : List Phrase}
    (h : Tree.Related (Becomes bs) t.visited us) (htame : t.visited.all (tame ·.1) = true)
    (hcalm : Calm bs c (t.rebuild us)) : Settled bs (t.rebuild us) := by
  refine settled_iff.mpr ⟨hcalm, fun u hu => ?_⟩
  rw [Tree.visited_rebuild h.aligned.symm] at hu
  obtain ⟨t', ht', hbecomes⟩ := h.exists_of_mem hu
  exact hbecomes.1.settled (List.all_eq_true.mp htame _ ht')

theorem tame_visited_stmt (s : Stmt) : s.visited.all (tame ·.1) = true := by
  cases s <;> rfl

theorem tame_visited_expr (e : Expr) : e.visited.all (tame ·.1) = true := by
  cases e with
  | access computed isOptional target prop => cases computed <;> rfl
  | _ => rfl

theorem rebuild_ne_sequence {s : Stmt} (h : ∀ inner, s ≠ .sequence inner) {us : List Phrase}
    (inner : Block) : s.rebuild us ≠ .sequence inner := by
  cases s with
  | sequence inner => exact absurd rfl (h inner)
  | _ => exact nofun

theorem becomes_inPlace {c : Category} {t : Tree c} {us : List Phrase}
    (hc : Pass.isActedOn c = false) (h : Tree.Related (Becomes bs) t.visited us) :
    Becomes bs c t (t.rebuild us) := by
  cases c with
  | list c =>
    cases t with
    | nil => exact ⟨nofun, trivial⟩
    | cons t ts =>
      obtain ⟨u, _, rfl, hu, h⟩ := Tree.exists_of_related_cons h
      obtain ⟨us, vs, rfl, hus, -⟩ := Tree.exists_of_related_cons h
      have hrebuild : (Tree.cons t ts).rebuild (⟨c, u⟩ :: ⟨.list c, us⟩ :: vs) = .cons u us := by
        show Tree.cons (Tree.partAt _ 0 t) (Tree.partAt _ 1 ts) = _
        rw [Tree.partAt_zero, Tree.partAt_succ, Tree.partAt_zero]
      rw [hrebuild]
      exact ⟨List.forall_mem_cons.mpr ⟨hu.1, hus.1⟩, trivial⟩
  | option c =>
    cases t with
    | none => exact ⟨nofun, trivial⟩
    | some t =>
      obtain ⟨u, vs, rfl, hu, -⟩ := Tree.exists_of_related_cons h
      have hrebuild : (Tree.some t).rebuild (⟨c, u⟩ :: vs) = .some u :=
        congrArg Tree.some (Tree.partAt_zero ..)
      rw [hrebuild]
      refine ⟨?_, hu.2⟩
      rintro _ ⟨⟩
      exact hu.1
  | stmt => cases hc
  | expr => cases hc
  | block => cases hc
  | body => cases hc
  | _ => exact ⟨settled_rebuild h (by cases t <;> rfl) trivial, trivial⟩

theorem becomes_block {items us : Tree (.list .stmt)} (h : Becomes bs _ items us) :
    Becomes bs .block (.stmts items) (Tree.blockOf (Tree.splice us.toList)) := by
  have hitems := settled_ofList (settled_splice h.1)
  exact ⟨settled_of_parts trivial (Tree.each_cons hitems Tree.each_nil), trivial⟩

theorem becomes_body {s u : Stmt} (h : Becomes bs .stmt s u) :
    Becomes bs .body (.body s) (.body (Pass.coerced u)) := by
  have hsettled : Settled bs (Pass.coerced u) := by
    rcases h.1 with hu | ⟨inner, rfl, hinner⟩
    · have hcoerced : Pass.coerced u = u := by
        cases u with
        | sequence inner => exact absurd rfl (hu.ne_sequence inner)
        | _ => rfl
      rw [hcoerced]
      exact hu
    · have hcalm : Calm bs .stmt (.blockStmt inner) :=
        ⟨nofun, simplified_of_other nofun rfl⟩
      exact settled_of_parts hcalm (Tree.each_cons hinner Tree.each_nil)
  have halike : (Pass.coerced u).fork = u.fork ∧
      ((Tree.body u).isBlock = true → (Tree.body (Pass.coerced u)).isBlock = true) := by
    cases u with
    | sequence inner => exact ⟨rfl, fun _ => rfl⟩
    | _ => exact ⟨rfl, id⟩
  exact ⟨settled_of_parts trivial (Tree.each_cons hsettled Tree.each_nil), halike.1.trans h.2.1,
    fun hs => halike.2 (h.2.2 hs)⟩

theorem becomes_stmt (hcoherent : Coherent bs) {s : Stmt} {us : List Phrase}
    (h : Tree.Related (Becomes bs) (simplified bs s).visited us) :
    Becomes bs .stmt s ((simplified bs s).rebuild us) := by
  refine ⟨?_, fork_rebuild h, fun hs => ?_⟩
  · by_cases hsequence : ∃ inner, simplified bs s = .sequence inner
    · obtain ⟨inner, hs⟩ := hsequence
      rw [hs] at h ⊢
      obtain ⟨inner', _, rfl, hinner, -⟩ := Tree.exists_of_related_cons h
      exact .inr ⟨inner', rfl, hinner.1⟩
    · have hne : ∀ parts, s ≠ .exprStmt (.comma parts) := by
        rintro parts rfl
        exact hsequence ⟨_, rfl⟩
      refine .inl (settled_rebuild h (tame_visited_stmt _) ⟨?_, simplified_rebuild hcoherent hne h⟩)
      exact rebuild_ne_sequence fun inner hs => hsequence ⟨inner, hs⟩
  · cases s with
    | blockStmt inner =>
      have hblock : simplified bs (.blockStmt inner) = .blockStmt inner :=
        simplified_of_other nofun rfl
      rw [hblock]
      rfl
    | _ => cases hs

theorem becomes_expr {e : Expr} {us : List Phrase}
    (h : Tree.Related (Becomes bs) (spelled bs e).visited us) :
    Becomes bs .expr e ((spelled bs e).rebuild us) :=
  ⟨settled_rebuild h (tame_visited_expr _) (spelled_rebuild h),
    (trait_rebuild _ _).trans (trait_spelled e)⟩

/-- What a walk with built-in rules makes of a phrase has nothing left to be done. -/
theorem admits_becomes {named : Tree .function → String → Option Nat → Prop}
    (hcoherent : Coherent bs) : Pass.Admits bs named (Becomes bs) where
  inPlace := becomes_inPlace
  block := becomes_block
  body := becomes_body
  stmt := becomes_stmt hcoherent
  helper {fn name id us} _ h := by
    have hfunction : simplified bs (.functionStmt fn) = .functionStmt fn :=
      simplified_of_other nofun rfl
    refine ⟨.inl (settled_rebuild h rfl ⟨nofun, simplified_of_other nofun rfl⟩), ?_, nofun⟩
    rw [hfunction]
    rfl
  expr := becomes_expr

end Builtin

end Unminify
