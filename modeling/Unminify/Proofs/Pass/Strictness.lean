import Mathlib.Data.List.Forall2
import Unminify.Proofs.Pass.Conserved
import Unminify.Proofs.Pass.Splicing

/-!
# Strictness across a pass

A body is strict code if `"use strict"` is among the directives at its beginning. A pass splits comma
expressions that are statements, also inside one another, and an operand that is a string is a directive
as soon as it stands at the beginning of a body. Nothing else that a pass does is seen there: a body is
strict after a pass if and only if it would be with its comma expressions written out as statements
(`strictness_pass`). So strict code stays strict, and sloppy code stays sloppy where no comma expression
of a list has a string among its operands.

What is compared is how statement lists open (`Tree.opening`). A walk keeps it, with the comma expressions
of the list before it written out and the sequences of the list after it spliced (`Opens`).
-/

namespace Unminify

namespace Tree

/-! ## Bodies -/

/-- The statements that a phrase stands for, with comma expressions written out. -/
def writtenOut : {c : Category} → Tree c → List Stmt
  | _, .sequence inner => writtenOut inner
  | _, .stmts items => writtenOut items
  | _, .exprStmt e => writtenOut e
  | _, .comma parts => writtenOut parts
  | _, .cons head tail => writtenOut head ++ writtenOut tail
  | .expr, e => [.exprStmt e]
  | .stmt, s => [s]
  | _, _ => []

/-- Whether a body is strict code once its comma expressions are statements. -/
def isStrictOnceSplit (b : Block) : Bool := (blockOf b.writtenOut).isStrict

/-- The statement list that is the body of a function, an arrow function or a static block. -/
def functionBody? : Phrase → Option Block
  | ⟨_, .function _ _ _ _ inner⟩ => Option.some inner
  | ⟨_, .blockBody inner⟩ => Option.some inner
  | ⟨_, .staticBlock inner⟩ => Option.some inner
  | _ => Option.none

/-- The bodies that may have directives: the phrase's own, and those inside it in the order of a walk. -/
def bodies (b : Block) : List Block := b :: b.reading functionBody?

/-! ## Openings -/

/-- How a statement list opens: with the texts of its directives, and then with something else if there is
anything else. Comments do not count. -/
def opening : List Stmt → List (Option String)
  | [] => []
  | s :: ss =>
    if s.isComment then opening ss
    else
      match s.directive? with
      | Option.some text => Option.some text :: opening ss
      | Option.none => [Option.none]

theorem opening_cons_comment {s : Stmt} (h : s.isComment = true) (ss : List Stmt) :
    opening (s :: ss) = opening ss := by
  rw [opening, if_pos h]

theorem opening_cons_directive {s : Stmt} {text : String} (hs : s.isComment = false)
    (h : s.directive? = Option.some text) (ss : List Stmt) :
    opening (s :: ss) = Option.some text :: opening ss := by
  rw [opening, if_neg (Bool.eq_false_iff.mp hs), h]

theorem opening_cons_other {s : Stmt} (hs : s.isComment = false) (h : s.directive? = Option.none)
    (ss : List Stmt) : opening (s :: ss) = [Option.none] := by
  rw [opening, if_neg (Bool.eq_false_iff.mp hs), h]

/-- Once something else than a directive has come, the rest of a list does not matter. -/
theorem opening_append (ss ts : List Stmt) :
    opening (ss ++ ts) = opening ss ++ if Option.none ∈ opening ss then [] else opening ts := by
  induction ss with
  | nil => rfl
  | cons s ss ih =>
    rw [List.cons_append]
    cases hs : s.isComment with
    | true => rw [opening_cons_comment hs, opening_cons_comment hs, ih]
    | false =>
      cases hd : s.directive? with
      | none => rw [opening_cons_other hs hd, opening_cons_other hs hd, if_pos List.mem_cons_self]; rfl
      | some text =>
        rw [opening_cons_directive hs hd, opening_cons_directive hs hd, ih]
        simp only [List.mem_cons, reduceCtorEq, false_or, List.cons_append]

theorem opening_append_congr {ss ss' ts ts' : List Stmt} (hs : opening ss = opening ss')
    (ht : opening ts = opening ts') : opening (ss ++ ts) = opening (ss' ++ ts') := by
  rw [opening_append, opening_append, hs, ht]

/-- Strictness can be read off the opening. -/
theorem isStrict_eq_contains (b : Block) :
    b.isStrict = (opening b.statements).contains (Option.some "use strict") := by
  rw [isStrict_eq]
  induction b.statements with
  | nil => rfl
  | cons s ss ih =>
    cases hs : s.isComment with
    | true =>
      rw [opening_cons_comment hs, ← ih, List.filter_cons, hs]
      rfl
    | false =>
      rw [List.filter_cons, hs, if_pos (by rfl), List.map_cons]
      cases hd : s.directive? with
      | none => rw [opening_cons_other hs hd]; rfl
      | some text =>
        rw [opening_cons_directive hs hd, List.takeWhile_cons, if_pos (by rfl), List.contains_cons, ih,
          List.contains_cons]

theorem isStrictOnceSplit_eq_contains (b : Block) :
    b.isStrictOnceSplit = (opening b.writtenOut).contains (Option.some "use strict") := by
  rw [isStrictOnceSplit, isStrict_eq_contains, statements_blockOf]

/-! ## Lists written out -/

theorem writtenOut_ofList {c : Category} (ts : List (Tree c)) :
    (ofList ts).writtenOut = ts.flatMap writtenOut := by
  induction ts with
  | nil => rfl
  | cons t ts ih => exact congrArg (t.writtenOut ++ ·) ih

theorem writtenOut_statements (b : Block) : b.writtenOut = b.statements.flatMap writtenOut := by
  rw [← writtenOut_ofList]
  conv_lhs => rw [← blockOf_statements b]
  rfl

/-- Splitting a comma expression writes its operands out. -/
theorem writtenOut_split (parts : Tree (.list .expr)) :
    (sequence (blockOf (parts.toList.map .exprStmt))).writtenOut = (exprStmt (.comma parts)).writtenOut := by
  have hparts : (ofList parts.toList).writtenOut = _ := writtenOut_ofList parts.toList
  rw [ofList_toList] at hparts
  show (ofList (parts.toList.map .exprStmt)).writtenOut = parts.writtenOut
  rw [writtenOut_ofList, hparts, List.flatMap_map]
  rfl

/-- A directive, written out, is the directive. -/
theorem writtenOut_of_directive? {s : Stmt} {text : String} (h : s.directive? = Option.some text) :
    s.writtenOut = [s] := by
  cases s with
  | exprStmt e =>
    cases e with
    | literal l => rfl
    | _ => cases h
  | _ => cases h

theorem writtenOut_of_isComment {s : Stmt} (h : s.isComment = true) : s.writtenOut = [s] := by
  cases s with
  | comment text => rfl
  | _ => cases h

/-- Directives stay where they are when comma expressions are written out. -/
theorem mem_opening_writtenOut {text : String} {ss : List Stmt} (h : Option.some text ∈ opening ss) :
    Option.some text ∈ opening (ss.flatMap writtenOut) := by
  induction ss with
  | nil => cases h
  | cons s ss ih =>
    rw [List.flatMap_cons]
    cases hs : s.isComment with
    | true =>
      rw [opening_cons_comment hs] at h
      rw [writtenOut_of_isComment hs, List.singleton_append, opening_cons_comment hs]
      exact ih h
    | false =>
      cases hd : s.directive? with
      | none =>
        rw [opening_cons_other hs hd] at h
        cases List.mem_singleton.mp h
      | some text' =>
        rw [opening_cons_directive hs hd] at h
        rw [writtenOut_of_directive? hd, List.singleton_append, opening_cons_directive hs hd]
        exact List.mem_cons.mpr ((List.mem_cons.mp h).imp id ih)

/-- **Strict code stays strict** when its comma expressions become statements. -/
theorem isStrictOnceSplit_of_isStrict {b : Block} (h : b.isStrict = true) :
    b.isStrictOnceSplit = true := by
  rw [isStrict_eq_contains, List.contains_iff_mem] at h
  rw [isStrictOnceSplit_eq_contains, List.contains_iff_mem, writtenOut_statements]
  exact mem_opening_writtenOut h

/-- What expressions are written out to are statements of expressions. -/
theorem isComment_writtenOut {c : Category} {t : Tree c} (hc : c = .expr ∨ c = .list .expr) :
    ∀ s ∈ t.writtenOut, s.isComment = false := by
  induction t using induction_on_parts with
  | step c t ih =>
    rcases hc with rfl | rfl
    · cases t with
      | comma parts => exact ih ⟨_, parts⟩ List.mem_cons_self (.inr rfl)
      | _ =>
        intro s hs
        rw [List.mem_singleton.mp hs]
        rfl
    · cases t with
      | nil => exact nofun
      | cons e es =>
        intro s hs
        rcases List.mem_append.mp hs with hs | hs
        · exact ih ⟨_, e⟩ List.mem_cons_self (.inl rfl) s hs
        · exact ih ⟨_, es⟩ (List.mem_cons_of_mem _ List.mem_cons_self) (.inr rfl) s hs

/-- The comma expressions of a statement list have operands, and no string is among them, however they
are nested. No sequence stands in the list. -/
def StringFree (ss : List Stmt) : Prop :=
  ∀ s ∈ ss, s.isSequence = false ∧ ∀ parts, s = .exprStmt (.comma parts) →
    parts.writtenOut ≠ [] ∧ ∀ t ∈ parts.writtenOut, t.directive? = Option.none

theorem opening_writtenOut {ss : List Stmt} (h : StringFree ss) :
    opening (ss.flatMap writtenOut) = opening ss := by
  induction ss with
  | nil => rfl
  | cons s ss ih =>
    have hs := h s List.mem_cons_self
    have hsame : s.writtenOut = [s] →
        opening ((s :: ss).flatMap writtenOut) = opening (s :: ss) := fun hself => by
      have hrest := ih fun t ht => h t (List.mem_cons_of_mem _ ht)
      rw [List.flatMap_cons, hself]
      exact opening_append_congr rfl hrest
    cases s with
    | sequence inner => cases hs.1
    | exprStmt e =>
      cases e with
      | comma parts =>
        -- the first operand opens the list with something else than a directive
        obtain ⟨hne, hnone⟩ := hs.2 parts rfl
        obtain ⟨t, ts, hout⟩ := List.exists_cons_of_ne_nil hne
        have ht : t ∈ parts.writtenOut := hout ▸ List.mem_cons_self
        have hcomment := isComment_writtenOut (.inr rfl) t ht
        rw [List.flatMap_cons, show (exprStmt (.comma parts)).writtenOut = t :: ts from hout,
          List.cons_append, opening_cons_other hcomment (hnone t ht)]
        rfl
      | _ => exact hsame rfl
    | _ => exact hsame rfl

/-- **Sloppy code stays sloppy** when its comma expressions become statements, if none of them has a string
among its operands. -/
theorem isStrictOnceSplit_eq {b : Block} (h : StringFree b.statements) :
    b.isStrictOnceSplit = b.isStrict := by
  rw [isStrictOnceSplit_eq_contains, isStrict_eq_contains, writtenOut_statements, opening_writtenOut h]

/-! ## Walks -/

/-- What a walk keeps of a phrase: how a statement list opens, with its comma expressions written out
before and its sequences spliced after the walk. -/
def Opens : (c : Category) → Tree c → Tree c → Prop
  | .expr, e, u => (exprStmt u).directive? = (exprStmt e).directive?
  | .stmt, s, u => opening u.leaves = opening s.writtenOut
  | .list .stmt, ss, us => opening us.leaves = opening ss.writtenOut
  | .block, b, u => opening u.statements = opening b.writtenOut ∧ u.leaves = u.statements
  | _, _, _ => True

theorem leaves_splice (ss : List Stmt) : (splice ss).flatMap leaves = splice ss := by
  have hself : (splice ss).flatMap leaves = (splice ss).flatMap fun s => [s] :=
    List.flatMap_congr fun s hs => leaves_of_isSequence_eq_false (isSequence_splice ss s hs)
  rw [hself, List.flatMap_singleton']

theorem opens_block {items us : Tree (.list .stmt)} (h : Opens _ items us) :
    Opens .block (.stmts items) (blockOf (splice us.toList)) := by
  have hleaves : us.leaves = splice us.toList := by
    rw [splice_eq_flatMap, ← leaves_ofList, ofList_toList]
  refine ⟨?_, ?_⟩
  · rw [statements_blockOf, ← hleaves]
    exact h
  · rw [statements_blockOf]
    exact (leaves_ofList _).trans (leaves_splice _)

/-- A statement that is no comma expression opens a list as it does after a walk of its parts. -/
theorem opens_rebuild {s : Stmt} (hs : ∀ parts, s ≠ .exprStmt (.comma parts)) {us : List Phrase}
    (h : Related Opens s.visited us) : Opens .stmt s (s.rebuild us) := by
  cases s with
  | exprStmt e =>
    cases h with
    | cons he hnil =>
      cases hnil
      have hout : (exprStmt e).writtenOut = [exprStmt e] := by
        cases e with
        | comma parts => exact absurd rfl (hs parts)
        | _ => rfl
      rename_i u
      show opening [exprStmt u] = opening (exprStmt e).writtenOut
      rw [hout]
      cases hd : (exprStmt e).directive? with
      | none => rw [opening_cons_other rfl hd, opening_cons_other rfl (he.trans hd)]
      | some text => rw [opening_cons_directive rfl hd, opening_cons_directive rfl (he.trans hd)]
  | sequence inner =>
    cases h with
    | cons hinner hnil =>
      cases hnil
      exact (congrArg opening hinner.2).trans hinner.1
  | _ => rfl

/-- What is read off bodies: whether they are strict, in one sense or the other. -/
def strictness? (strict : Block → Bool) (q : Phrase) : Option Bool := (functionBody? q).map strict

theorem skims_strictness? (strict : Block → Bool) : Skims (strictness? strict) := by
  intro c t h
  cases t <;> first | rfl | cases h

theorem map_bodies (strict : Block → Bool) (b : Block) :
    b.bodies.map strict = strict b :: b.reading (strictness? strict) := by
  rw [bodies, List.map_cons, reading, List.map_filterMap]
  rfl

/-- What a walk keeps of a phrase and of the bodies inside it. -/
structure Hardens (c : Category) (t u : Tree c) : Prop where
  opens : Opens c t u
  bodies : u.reading (strictness? isStrict) = t.reading (strictness? isStrictOnceSplit)

theorem isStrict_of_opens {b u : Block} (h : Opens .block b u) : u.isStrict = b.isStrictOnceSplit := by
  rw [isStrict_eq_contains, isStrictOnceSplit_eq_contains, h.1]

theorem opens_of_hardens {ps us : List Phrase} (h : Related Hardens ps us) : Related Opens ps us :=
  h.imp fun _ _ _ h => h.opens

/-- The strictness of a body is that of the body from which a walk has made it. -/
theorem strictness?_rebuild {c : Category} {t : Tree c} {us : List Phrase}
    (h : Related Hardens t.visited us) :
    strictness? isStrict ⟨c, t.rebuild us⟩ = strictness? isStrictOnceSplit ⟨c, t⟩ := by
  cases c with
  | function =>
    cases t with
    | function isAsync isGenerator name params inner =>
      obtain ⟨_, _, rfl, -, h⟩ := exists_of_related_cons h
      obtain ⟨_, _, rfl, -, h⟩ := exists_of_related_cons h
      obtain ⟨_, _, rfl, hinner, -⟩ := exists_of_related_cons h
      exact congrArg Option.some (isStrict_of_opens hinner.opens)
  | arrowBody =>
    cases t with
    | exprBody value => rfl
    | blockBody inner =>
      obtain ⟨_, _, rfl, hinner, -⟩ := exists_of_related_cons h
      exact congrArg Option.some (isStrict_of_opens hinner.opens)
  | member =>
    cases t with
    | staticBlock inner =>
      obtain ⟨_, _, rfl, hinner, -⟩ := exists_of_related_cons h
      exact congrArg Option.some (isStrict_of_opens hinner.opens)
    | _ => rfl
  | _ =>
    -- no other form has a body
    clear h
    cases t <;> exact Eq.trans (b := Option.none) rfl rfl

theorem bodies_rebuild {c : Category} {t : Tree c} {us : List Phrase}
    (h : Related Hardens t.visited us) :
    (t.rebuild us).reading (strictness? isStrict) = t.reading (strictness? isStrictOnceSplit) := by
  have hparts : ∀ {ps us : List Phrase}, Related Hardens ps us →
      (us.flatMap fun u => u.2.reading (strictness? isStrict)) =
        ps.flatMap fun p => p.2.reading (strictness? isStrictOnceSplit) := by
    intro ps us h
    induction h with
    | nil => rw [List.flatMap_nil, List.flatMap_nil]
    | cons hu _ ih => rw [List.flatMap_cons, List.flatMap_cons, ih, hu.bodies]
  rw [reading_eq, reading_eq, strictness?_rebuild h, visited_rebuild h.aligned.symm, hparts h]

/-! ## Steps -/

theorem hardens_inPlace {c : Category} {t : Tree c} {us : List Phrase} (hc : Pass.isActedOn c = false)
    (h : Related Hardens t.visited us) : Hardens c t (t.rebuild us) := by
  refine ⟨?_, bodies_rebuild h⟩
  cases c with
  | list d =>
    cases d with
    | stmt =>
      cases t with
      | nil => rfl
      | cons s ss =>
        cases h with
        | cons hs h =>
          cases h with
          | cons hss h =>
            cases h
            exact opening_append_congr hs.opens hss.opens
    | _ => trivial
  | block => cases hc
  | stmt => cases hc
  | expr => cases hc
  | _ => trivial

theorem hardens_block {items us : Tree (.list .stmt)} (h : Hardens _ items us) :
    Hardens .block (.stmts items) (blockOf (splice us.toList)) := by
  have hf : Skims (strictness? isStrict) := skims_strictness? isStrict
  refine ⟨opens_block h.opens, ?_⟩
  rw [hf.blockOf, hf.splice, ← hf.ofList, ofList_toList, h.bodies, Skims.stmts (skims_strictness? _)]

theorem hardens_body {s u : Stmt} (h : Hardens .stmt s u) :
    Hardens .body (.body s) (.body (Pass.coerced u)) := by
  have hf : Skims (strictness? isStrict) := skims_strictness? isStrict
  refine ⟨trivial, ?_⟩
  have hcoerced : (Pass.coerced u).reading (strictness? isStrict) = u.reading (strictness? isStrict) := by
    cases u with
    | sequence inner => exact (hf.blockStmt inner).trans (hf.sequence inner).symm
    | _ => rfl
  rw [hf.body, hcoerced, h.bodies, Skims.body (skims_strictness? _)]

/-- A rule for statements makes no comma expression, and opens a list as the statement does. -/
theorem opening_recast (b : Builtin) {s : Stmt} (hs : ∀ parts, s ≠ .exprStmt (.comma parts)) :
    (∀ parts, b.recast s ≠ .exprStmt (.comma parts)) ∧
      opening (b.recast s).writtenOut = opening s.writtenOut := by
  cases s with
  | exprStmt e =>
    cases e with
    | comma parts => exact absurd rfl (hs parts)
    | binary op left right => cases op <;> exact ⟨nofun, rfl⟩
    | _ => exact ⟨nofun, rfl⟩
  | ifStmt test consequent alternate =>
    cases alternate with
    | none => exact ⟨nofun, rfl⟩
    | some alternate =>
      rw [Pass.recast_ifStmt_some]
      exact ⟨nofun, rfl⟩
  | _ => exact ⟨nofun, rfl⟩

theorem hardens_stmt {bs : List Builtin} {s : Stmt} {us : List Phrase}
    (h : Related Hardens (Builtin.simplified bs s).visited us) :
    Hardens .stmt s ((Builtin.simplified bs s).rebuild us) := by
  refine ⟨?_, ?_⟩
  · have hopens := opens_of_hardens h
    by_cases hcomma : ∃ parts, s = .exprStmt (.comma parts)
    · obtain ⟨parts, rfl⟩ := hcomma
      have hne : ∀ es, sequence (blockOf (parts.toList.map .exprStmt)) ≠ .exprStmt (.comma es) := nofun
      exact (opens_rebuild hne hopens).trans (congrArg opening (writtenOut_split parts))
    · have hne : ∀ parts, s ≠ .exprStmt (.comma parts) := fun parts h => hcomma ⟨parts, h⟩
      rw [Pass.simplified_of_ne hne, Builtin.reshaped] at hopens ⊢
      cases hb : Builtin.pick bs s with
      | none =>
        rw [hb] at hopens
        exact opens_rebuild hne hopens
      | some b =>
        rw [hb] at hopens
        obtain ⟨hne', hopening⟩ := opening_recast b hne
        exact (opens_rebuild hne' hopens).trans hopening
  · rw [bodies_rebuild h, Builtin.Skims.simplified (skims_strictness? _)]

/-- A walk makes no string of an expression, and leaves strings as they are. -/
theorem directive?_rebuild (e : Expr) (us : List Phrase) :
    (exprStmt (e.rebuild us)).directive? = (exprStmt e).directive? := by
  cases e <;> rfl

theorem directive?_spelled (bs : List Builtin) (e : Expr) :
    (exprStmt (Builtin.spelled bs e)).directive? = (exprStmt e).directive? := by
  rw [Builtin.spelled]
  cases hfind : bs.findSome? (·.spelling? e) with
  | none => rfl
  | some written =>
    obtain ⟨b, -, hb⟩ := List.exists_of_findSome?_eq_some hfind
    obtain ⟨found, hconstant, hsame⟩ := Pass.spelling?_eq_some.mp hb
    have hform := (same_iff.mp hsame).1
    -- what is found is an operator before a literal, and so is the expression
    have hunary : ∀ op arg, found = .unary op arg → (exprStmt e).directive? = Option.none := by
      rintro op arg rfl
      cases e with
      | literal l => exact absurd hform Bool.false_ne_true
      | _ => rfl
    cases b <;> cases hconstant <;> exact (hunary _ _ rfl).symm

theorem hardens_expr {bs : List Builtin} {e : Expr} {us : List Phrase}
    (h : Related Hardens (Builtin.spelled bs e).visited us) :
    Hardens .expr e ((Builtin.spelled bs e).rebuild us) := by
  refine ⟨(directive?_rebuild _ us).trans (directive?_spelled bs e), ?_⟩
  have hname : ∀ name : Name, strictness? isStrictOnceSplit ⟨.name, name⟩ = Option.none := by
    intro name
    cases name <;> rfl
  rw [bodies_rebuild h, Builtin.Skims.spelled (skims_strictness? _) hname]

end Tree

/-! ## Helpers -/

namespace Builtin

open Tree Pattern

variable {options : MatchOptions}

theorem strictness?_name (strict : Block → Bool) (name : Name) :
    strictness? strict ⟨.name, name⟩ = Option.none := by
  cases name <;> rfl

/-- Whether a phrase is neither a hole, but for names, nor has a body of its own. -/
def isBodiless (q : Phrase) : Bool :=
  (!q.2.isNotable || q.1 == .name) && q.2.hole?.all (·.family = .generic)

/-- A form of the pattern has a body as soon as what it is compared with has one. -/
theorem strictness?_of_sameForm (strict : Block → Bool) {c : Category} {p n : Tree c}
    (h : p.sameForm n = true) (hp : isBodiless ⟨c, p⟩ = true) : strictness? strict ⟨c, n⟩ = Option.none := by
  cases c with
  | function =>
    cases p
    cases hp
  | arrowBody =>
    cases p with
    | blockBody _ => cases hp
    | exprBody _ =>
      cases n with
      | exprBody _ => rfl
      | blockBody _ => cases h
  | member =>
    cases n with
    | staticBlock _ => cases p <;> first | (cases hp; done) | cases h
    | _ => rfl
  | _ => cases n <;> rfl

theorem strictness?_of_isBodiless (strict : Block → Bool) {q : Phrase} (h : isBodiless q = true) :
    strictness? strict q = Option.none := by
  obtain ⟨c, t⟩ := q
  cases t <;> first | rfl | cases h

theorem bodies_eq_nil (strict : Block → Bool) {c : Category} {t : Tree c}
    (h : t.phrases.all isBodiless = true) : t.reading (strictness? strict) = [] := by
  rw [reading, List.filterMap_eq_nil_iff]
  intro q hq
  have hall : t.Everywhere fun q => isBodiless q = true := List.all_eq_true.mp h
  exact strictness?_of_isBodiless strict (hall.reached hq).self

theorem bodies_of_matches (strict : Block → Bool) {c : Category} {p n : Tree c}
    (hp : p.phrases.all isBodiless = true) {env env' : Environment} (h : Matches options p n env env') :
    n.reading (strictness? strict) = [] := by
  have hall : p.Everywhere fun q => isBodiless q = true ∧ q.2.hole?.all (·.family = .generic) = true :=
    fun q hq => by
      have hq := List.all_eq_true.mp hp q hq
      exact ⟨hq, (Bool.and_eq_true_iff.mp hq).2⟩
  exact h.reading_eq_nil (strictness?_name strict) (strictness?_of_sameForm strict) hall

/-- A function whose parts have no bodies inside has one body. -/
theorem bodies_functionStmt (strict : Block → Bool) {isAsync isGenerator : Bool}
    {name : Tree (.option .name)} {params : Tree (.list .binder)} {inner : Block}
    (hname : name.reading (strictness? strict) = []) (hparams : params.reading (strictness? strict) = [])
    (hinner : inner.reading (strictness? strict) = []) :
    (functionStmt (.function isAsync isGenerator name params inner)).reading (strictness? strict) =
      [strict inner] := by
  have hskims : Skims (strictness? strict) := skims_strictness? _
  rw [hskims.single rfl rfl, reading_eq]
  show strict inner :: (name.reading (strictness? strict) ++ (params.reading (strictness? strict) ++
    (inner.reading (strictness? strict) ++ []))) = _
  rw [hname, hparams, hinner]
  rfl

/-- What matches a list that begins with a `return` begins with one. -/
theorem isStrictOnceSplit_of_matches {value : Tree (.option .expr)} {rest : Tree (.list .stmt)}
    {inner : Block} {env env' : Environment}
    (h : Matches options (.stmts (.cons (.returnStmt value) rest)) inner env env') :
    inner.isStrictOnceSplit = false := by
  cases inner with
  | stmts items =>
    obtain ⟨-, hitems⟩ := (matches_of_compare rfl).mp h
    cases hitems with
    | cons hitems _ =>
      obtain ⟨hform, hparts⟩ := (matches_of_compare rfl).mp hitems
      cases items with
      | nil => cases hform
      | cons s ss =>
        cases hparts with
        | cons hs _ =>
          have hkind := kind_eq_of_sameForm ((matches_of_compare rfl).mp hs).1
          cases s with
          | returnStmt value' => rfl
          | _ => cases hkind

/-- A function that is rewritten to a helper has one body, which is no strict code of its own. -/
theorem bodies_of_interopRule {fn : Tree .function}
    (h : (interopRule.applyToStmt? options (.functionStmt fn)).isSome = true) :
    (functionStmt fn).reading (strictness? isStrictOnceSplit) = [false] := by
  obtain ⟨env, hmatch⟩ := matches_of_interopRule h
  obtain ⟨-, hfn⟩ := (matches_of_compare rfl).mp hmatch
  cases hfn with
  | cons hfn _ =>
    cases fn with
    | function isAsync isGenerator name params inner =>
      obtain ⟨-, hparts⟩ := (matches_of_compare rfl).mp hfn
      cases hparts with
      | cons hname hparts =>
        cases hparts with
        | cons hparams hparts =>
          cases hparts with
          | cons hinner _ =>
            rw [bodies_functionStmt _ (bodies_of_matches _ (by decide) hname)
              (bodies_of_matches _ (by decide) hparams) (bodies_of_matches _ (by decide) hinner),
              isStrictOnceSplit_of_matches hinner]

theorem bodies_interopHelper (name : String) (id : Option Nat) :
    (interopHelper (.ident name id) (.ident "obj" none)).reading (strictness? isStrictOnceSplit) =
      [false] :=
  bodies_functionStmt _ (bodies_eq_nil _ rfl) (bodies_eq_nil _ rfl) (bodies_eq_nil _ rfl)

theorem hardens_helper {table : RuleTable} {helpers : Bool} {fn : Tree .function} {name : String}
    {id : Option Nat} {us : List Phrase} (hfn : Pass.Turns table helpers fn)
    (h : Related Hardens (interopHelper (.ident name id) (.ident "obj" none)).visited us) :
    Hardens .stmt (.functionStmt fn)
      ((interopHelper (.ident name id) (.ident "obj" none)).rebuild us) := by
  refine ⟨rfl, ?_⟩
  rw [bodies_rebuild h, bodies_of_interopRule hfn.2, bodies_interopHelper]

theorem admits_hardens (table : RuleTable) (bs : List Builtin) (helpers : Bool) :
    Pass.Admits bs (fun fn _ _ => Pass.Turns table helpers fn) Hardens where
  inPlace := hardens_inPlace
  block := hardens_block
  body := hardens_body
  stmt := hardens_stmt
  helper := hardens_helper
  expr := hardens_expr

end Builtin

namespace RuleTable

open Pass Tree

variable {full table : RuleTable} {p : Program}

/-- Renaming leaves the strictness of bodies as it is. -/
theorem bodies_renamed (g : ScopeGraph) (b : Block) :
    (g.renamed b).bodies.map isStrict = b.bodies.map isStrict := by
  have hself : ∀ {c : Category} (t : Tree c),
      strictness? isStrict ⟨c, g.renamed t⟩ = strictness? isStrict ⟨c, t⟩ := by
    intro c t
    cases t with
    | function _ _ _ _ inner => exact congrArg Option.some (g.isStrict_renamed inner)
    | blockBody inner => exact congrArg Option.some (g.isStrict_renamed inner)
    | staticBlock inner => exact congrArg Option.some (g.isStrict_renamed inner)
    | access computed _ _ _ => cases computed <;> rfl
    | shorthand ident => rw [ScopeGraph.renamed_shorthand]; cases g.renamedBinding? ident <;> rfl
    | shortBinder ident value =>
      rw [ScopeGraph.renamed_shortBinder]
      cases g.renamedBinding? ident <;> cases g.renamed value <;> rfl
    | _ => rfl
  rw [map_bodies, map_bodies, g.isStrict_renamed,
    ScopeGraph.Skims.reading_renamed (skims_strictness? _) (Builtin.strictness?_name _) hself]

/-- **What a pass does to strictness.** Whatever built-in rules are in the table: if a pass over a program
without holes does not stop, the bodies of the program and its functions are still there, in the same
order. Each is strict code if and only if the one it comes from is once comma expressions are written out
as statements. So what is strict stays strict, and where no comma expression of the list has a string
among its operands nothing changes. -/
theorem strictness_pass (hfull : builtin = .ok full) (hsub : table.rules.Sublist full.rules)
    (hp : p.body.holes = []) {stats : Stats} (hok : (table.pass p).2 = .ok stats) :
    List.Forall₂ (fun before after => after.isStrict = before.isStrictOnceSplit ∧
        (before.isStrict = true → after.isStrict = true) ∧
        (StringFree before.statements → after.isStrict = before.isStrict))
      p.body.bodies (table.pass p).1.body.bodies := by
  obtain ⟨bs, helpers, htable, -⟩ := offers_of_sublist hfull hsub
  have hmap : (table.pass p).1.body.bodies.map isStrict = p.body.bodies.map isStrictOnceSplit := by
    rcases pass_cases htable (Builtin.admits_hardens table bs helpers) hp with
      ⟨body, s, -, hhardens, hpass⟩ | ⟨body, e, -, hpass⟩
    · rw [hpass, ScopeGraph.fst_applyRenames, bodies_renamed, map_bodies, map_bodies, hhardens.bodies,
        isStrict_of_opens hhardens.opens]
    · rw [hpass] at hok
      cases hok
  have hall : List.Forall₂ Eq (p.body.bodies.map isStrictOnceSplit)
      ((table.pass p).1.body.bodies.map isStrict) := by
    rw [List.forall₂_eq_eq_eq, hmap]
  rw [List.forall₂_map_left_iff, List.forall₂_map_right_iff] at hall
  refine hall.imp fun before after h => ⟨h.symm, fun hstrict => ?_, fun hfree => ?_⟩
  · rw [← h, isStrictOnceSplit_of_isStrict hstrict]
  · rw [← h, isStrictOnceSplit_eq hfree]

/-- The program
`"use strict", a;`
`function f() { b, c; }` -/
def directiveUse : Program :=
  let use (text : String) (n : Nat) : Expr := .identExpr (.ident text (some n))
  { body := blockOf [
      .exprStmt (.comma (ofList [.literal (.string "use strict"), use "a" 14])),
      .functionStmt (.function false false (.some (.ident "f" (some 26))) .nil
        (blockOf [.exprStmt (.comma (ofList [use "b" 32, use "c" 35]))]))] }

/-- The program becomes strict code, its function does not. -/
theorem strictness_pass_directiveUse :
    ∃ full stats, builtin = .ok full ∧ directiveUse.body.holes = [] ∧
      (full.pass directiveUse).2 = .ok stats ∧
      directiveUse.body.bodies.map isStrict = [false, false] ∧
      directiveUse.body.bodies.map isStrictOnceSplit = [true, false] ∧
      List.Forall₂ (fun before after => after.isStrict = before.isStrictOnceSplit ∧
          (before.isStrict = true → after.isStrict = true) ∧
          (StringFree before.statements → after.isStrict = before.isStrict))
        directiveUse.body.bodies (full.pass directiveUse).1.body.bodies := by
  have hbuiltin := builtin_eq
  generalize htable : ({ rules := Builtin.all.map Builtin.rule ++ [Builtin.interopRule] } : RuleTable) =
    full at hbuiltin
  have hholes : directiveUse.body.holes = [] := by decide +kernel
  have hok : (full.pass directiveUse).2 = .ok { split := 2 } := by
    rw [← htable]
    decide +kernel
  exact ⟨full, _, hbuiltin, hholes, hok, by decide +kernel, by decide +kernel,
    strictness_pass hbuiltin (List.Sublist.refl _) hholes hok⟩

end RuleTable

end Unminify
