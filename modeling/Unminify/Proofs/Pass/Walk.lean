import Unminify.Proofs.Pass.Replacement

/-!
# Walks of a pass

How the steps of a pass with built-in rules add up to a whole walk.

* `yields_walk`: a relation between phrases before and after that *admits* every step holds between a
  phrase and what the walk makes of it. Every property of whole passes is such a relation
  (`pass_cases`). What the phrase has to satisfy for that is a condition that the walk can rely on all
  the way (`Relies`).
* `walk_eq_pure`: a walk over a phrase at which no step has anything to do changes nothing.
-/

namespace Unminify

namespace Pass

open Tree

/-! ## Walks that keep a stop -/

theorem keeps_walkAll {c : Category} {f : (c : Category) → Tree c → Pass (Tree c)} {ps : List Phrase}
    (h : ∀ p ∈ ps, Keeps (f p.1 p.2)) (build : List Phrase → Tree c) :
    Keeps (walkAll f ps build) := by
  induction ps generalizing build with
  | nil => exact keeps_pure _
  | cons p ps ih =>
    rw [walkAll]
    exact (h p List.mem_cons_self).bind fun u => ih (fun q hq => h q (List.mem_cons_of_mem _ hq)) _

variable {table : RuleTable} {bs : List Builtin} {helpers : Bool}

/-- What a walk does at the phrases inside: it goes on at a lower depth, or in place. -/
def hookAt (table : RuleTable) (depth : Nat) : Hook Pass := fun c t inPlace =>
  if isActedOn c then walk table depth c t else inPlace ()

theorem keeps_descend {depth : Nat} (h : ∀ c (t : Tree c), Keeps (walk table depth c t)) {c : Category}
    (t : Tree c) : Keeps (t.descend (hookAt table depth)) := by
  induction t using induction_on_parts with
  | step c t ih =>
    rw [descend_eq]
    refine keeps_walkAll (fun p hp => ?_) _
    rw [hookAt]
    split
    · exact h p.1 p.2
    · exact ih p (mem_parts_of_visited hp)

theorem walk_succ (depth : Nat) (c : Category) (t : Tree c) :
    walk table (depth + 1) c t = visitWith table (hookAt table depth) c t := rfl

theorem keeps_walk (depth : Nat) (c : Category) (t : Tree c) : Keeps (walk table depth c t) := by
  induction depth generalizing c t with
  | zero => exact (keeps_fail _).bind fun _ => keeps_pure _
  | succ depth ih =>
    rw [walk_succ]
    cases c with
    | block => exact keeps_unlessStopped _ _
    | stmt => exact keeps_unlessStopped _ _
    | expr => exact keeps_unlessStopped _ _
    | body =>
      refine (keeps_descend ih t).bind fun b => ?_
      split
      · exact (keeps_count _).bind fun _ => keeps_pure _
      · exact keeps_pure _
    | _ => exact keeps_descend ih t

/-! ## Walks and relations -/

/-- A sequence in the place of a body becomes a block. -/
def coerced : Stmt → Stmt
  | .sequence inner => .blockStmt inner
  | s => s

/-- A function that the rule for interop helpers matches, if that rule is there. -/
def Turns (table : RuleTable) (helpers : Bool) (fn : Tree .function) : Prop :=
  helpers = true ∧ (Builtin.interopRule.applyToStmt? table.options (.functionStmt fn)).isSome = true

/-- A condition that a walk can rely on at every phrase that it comes to: there are no holes, all that
rules make has it, and a function that becomes a helper is given such a name that the helper has it. -/
structure Relies (r : Regime) (table : RuleTable) (helpers : Bool) (φ : Phrase → Prop)
    (named : Tree .function → String → Option Nat → Prop) : Prop extends Pervasive φ where
  whole : ∀ {q : Phrase}, φ q → q.2.hole? = Option.none
  names : ∀ {fn : Tree .function}, Turns table helpers fn → (Tree.functionStmt fn).Everywhere φ →
    Names r fn fun name id => named fn name id ∧
      (Builtin.interopHelper (.ident name id) (.ident "obj" none)).Everywhere φ

/-- A relation between phrases before and after a walk that holds after every step if it holds of the
parts; helpers have names that functions may be given. -/
structure Admits (bs : List Builtin) (named : Tree .function → String → Option Nat → Prop)
    (R : (c : Category) → Tree c → Tree c → Prop) : Prop where
  inPlace : ∀ {c : Category} {t : Tree c} {us : List Phrase}, isActedOn c = false →
    Related R t.visited us → R c t (t.rebuild us)
  block : ∀ {items us : Tree (.list .stmt)}, R _ items us →
    R .block (.stmts items) (blockOf (splice us.toList))
  body : ∀ {s u : Stmt}, R .stmt s u → R .body (.body s) (.body (coerced u))
  stmt : ∀ {s : Stmt} {us : List Phrase}, Related R (Builtin.simplified bs s).visited us →
    R .stmt s ((Builtin.simplified bs s).rebuild us)
  helper : ∀ {fn : Tree .function} {name : String} {id : Option Nat} {us : List Phrase},
    named fn name id →
    Related R (Builtin.interopHelper (.ident name id) (.ident "obj" none)).visited us →
    R .stmt (.functionStmt fn) ((Builtin.interopHelper (.ident name id) (.ident "obj" none)).rebuild us)
  expr : ∀ {e : Expr} {us : List Phrase}, Related R (Builtin.spelled bs e).visited us →
    R .expr e ((Builtin.spelled bs e).rebuild us)

section

variable {named : Tree .function → String → Option Nat → Prop}

/-- Two relations that admit every step do so together. -/
theorem Admits.and {R S : (c : Category) → Tree c → Tree c → Prop} (hR : Admits bs named R)
    (hS : Admits bs named S) : Admits bs named fun c t u => R c t u ∧ S c t u := by
  have hleft : ∀ {ps us}, Related (fun c t u => R c t u ∧ S c t u) ps us → Related R ps us :=
    fun h => h.imp fun _ _ _ h => h.1
  have hright : ∀ {ps us}, Related (fun c t u => R c t u ∧ S c t u) ps us → Related S ps us :=
    fun h => h.imp fun _ _ _ h => h.2
  exact {
    inPlace := fun hc h => ⟨hR.inPlace hc (hleft h), hS.inPlace hc (hright h)⟩
    block := fun h => ⟨hR.block h.1, hS.block h.2⟩
    body := fun h => ⟨hR.body h.1, hS.body h.2⟩
    stmt := fun h => ⟨hR.stmt (hleft h), hS.stmt (hright h)⟩
    helper := fun hh h => ⟨hR.helper hh (hleft h), hS.helper hh (hright h)⟩
    expr := fun h => ⟨hR.expr (hleft h), hS.expr (hright h)⟩ }

/-- Without conditions on the program but that it has no holes, a pass may stop at a helper. -/
theorem relies_hole? (table : RuleTable) (helpers : Bool) (first : ScopeGraph) :
    Relies (.loose helpers first) table helpers (fun q => q.2.hole? = Option.none)
      fun fn _ _ => Turns table helpers fn where
  toPervasive := lasting_hole?.pervasive
  whole := id
  names {fn} hturns _ := by
    obtain ⟨rfl, -⟩ := id hturns
    exact (names_loose first fn).imp fun _ ⟨name, id, hnew, _⟩ =>
      ⟨name, id, hnew, hturns, Builtin.everywhere_interopHelper lasting_hole? name id⟩

end

section

variable {r : Regime} {φ : Phrase → Prop} {named : Tree .function → String → Option Nat → Prop}
  {R : (c : Category) → Tree c → Tree c → Prop}

theorem yields_walkAll {c : Category} {f : (c : Category) → Tree c → Pass (Tree c)} {ps : List Phrase}
    (hkeeps : ∀ p ∈ ps, Keeps (f p.1 p.2)) (h : ∀ p ∈ ps, Yields r (f p.1 p.2) (R p.1 p.2))
    (build : List Phrase → Tree c) :
    Yields r (walkAll f ps build) fun u => ∃ us, u = build us ∧ Related R ps us := by
  induction ps generalizing build with
  | nil => exact yields_pure ⟨[], rfl, .nil⟩
  | cons p ps ih =>
    replace ih := fun build => ih (fun q hq => hkeeps q (List.mem_cons_of_mem _ hq))
      (fun q hq => h q (List.mem_cons_of_mem _ hq)) build
    rw [walkAll]
    refine (h p List.mem_cons_self).bind (fun u hu => (ih _).imp ?_) fun u => ?_
    · rintro _ ⟨us, rfl, hus⟩
      exact ⟨⟨p.1, u⟩ :: us, rfl, .cons hu hus⟩
    · exact keeps_walkAll (fun q hq => hkeeps q (List.mem_cons_of_mem _ hq)) _

/-- The walk of the parts of a phrase, given the walk at a lower depth. -/
theorem yields_descend (hR : Admits bs named R) {depth : Nat}
    (hwalk : ∀ c (t : Tree c), t.Everywhere φ → Within depth t →
      Yields r (walk table depth c t) (R c t)) {c : Category} (t : Tree c) (ht : t.Everywhere φ)
    (hdepth : ∀ p ∈ t.visited, Within depth p.2) :
    Yields r (t.descend (hookAt table depth)) fun u =>
      ∃ us, u = t.rebuild us ∧ Related R t.visited us := by
  induction t using induction_on_parts with
  | step c t ih =>
    have hkeeps := fun p (_ : p ∈ t.visited) => show
        Keeps (hookAt table depth p.1 p.2 fun _ => p.2.descend (hookAt table depth)) by
      rw [hookAt]
      split
      · exact keeps_walk depth p.1 p.2
      · exact keeps_descend (keeps_walk depth) p.2
    rw [descend_eq]
    refine yields_walkAll hkeeps (fun p hp => ?_) t.rebuild
    have hpart := mem_parts_of_visited hp
    have hp' := ht.part hpart
    rw [hookAt]
    split
    · exact hwalk p.1 p.2 hp' (hdepth p hp)
    · rename_i hacted
      have hinner := fun q hq => ((hdepth p hp).visited (p := q) hq).mono (Nat.sub_le _ _)
      refine (ih p hpart hp' hinner).imp ?_
      rintro _ ⟨us, rfl, hus⟩
      exact hR.inPlace (Bool.eq_false_iff.mpr hacted) hus

/-- A relation that admits every step holds between a phrase and what a walk makes of it. -/
theorem yields_walk (htable : table.Offers bs helpers) (hφ : Relies r table helpers φ named)
    (hR : Admits bs named R) {depth : Nat} {c : Category} {t : Tree c} (ht : t.Everywhere φ)
    (hdepth : Within depth t) : Yields r (walk table depth c t) (R c t) := by
  induction depth generalizing c t with
  | zero => exact absurd hdepth.pos (by omega)
  | succ depth ih =>
    have hdescend : ∀ {c} {t : Tree c}, t.Everywhere φ → Each (fun _ t => Within depth t) t.visited →
        Yields r (t.descend (hookAt table depth)) fun u =>
          ∃ us, u = t.rebuild us ∧ Related R t.visited us := fun ht hdepth =>
      yields_descend hR (fun _ _ ht hdepth => ih ht hdepth) _ ht hdepth.of_mem
    rw [walk_succ]
    cases c with
    | block =>
      cases t with
      | stmts items =>
        refine Yields.unlessStopped ?_ _
        have hblock : blockOf (stmts items).statements = stmts items := congrArg stmts (ofList_toList items)
        rw [sweep_eq_pure htable, pure_bind, hblock]
        refine (hdescend ht hdepth.parts).bind ?_ fun _ => keeps_pure _
        rintro _ ⟨us, rfl, hus⟩
        cases hus with
        | cons hitems hnil =>
          cases hnil
          exact yields_pure (hR.block hitems)
    | body =>
      cases t with
      | body s =>
        refine (hdescend ht hdepth.parts).bind ?_ fun b => ?_
        · rintro _ ⟨us, rfl, hus⟩
          cases hus with
          | cons hs hnil =>
            cases hnil
            have hbody := hR.body hs
            rename_i s'
            cases s' with
            | sequence inner =>
              exact (yields_count _).bind (fun _ _ => yields_pure hbody) fun _ => keeps_pure _
            | _ => exact yields_pure hbody
        · split
          · exact (keeps_count _).bind fun _ => keeps_pure _
          · exact keeps_pure _
    | stmt =>
      have hholes : t.holes = [] := holes_eq_nil_iff.mpr fun q hq => hφ.whole (ht q hq)
      have hnames : ∀ fn, helpers = true → t = .functionStmt fn →
          (Builtin.interopRule.applyToStmt? table.options (.functionStmt fn)).isSome = true →
            Names r fn fun name id => named fn name id ∧
              (Builtin.interopHelper (.ident name id) (.ident "obj" none)).Everywhere φ := by
        rintro fn hhelpers rfl hsome
        exact hφ.names ⟨hhelpers, hsome⟩ ht
      refine Yields.unlessStopped ?_ _
      refine (yields_simplifyStmt htable hholes hnames).bind ?_ fun s => keeps_descend (keeps_walk depth) s
      rintro s (rfl | ⟨fn, name, id, rfl, ⟨hnamed, hhelper⟩, rfl⟩)
      · have hsimplified : (Builtin.simplified bs t).Everywhere φ :=
          Builtin.everywhere_simplified hφ.toPervasive ht
        refine (hdescend hsimplified (Builtin.within_simplified hdepth)).imp ?_
        rintro _ ⟨us, rfl, hus⟩
        exact hR.stmt hus
      · refine (hdescend hhelper (Builtin.within_interopHelper hdepth name id)).imp ?_
        rintro _ ⟨us, rfl, hus⟩
        exact hR.helper hnamed hus
    | expr =>
      refine Yields.unlessStopped ?_ _
      refine (yields_applyToExpr htable t).bind ?_ fun e => keeps_descend (keeps_walk depth) e
      rintro _ rfl
      have hspelled : (Builtin.spelled bs t).Everywhere φ :=
        Builtin.everywhere_spelled hφ.toPervasive ht
      refine (hdescend hspelled (Builtin.within_spelled hdepth)).imp ?_
      rintro _ ⟨us, rfl, hus⟩
      exact hR.expr hus
    | _ =>
      refine (hdescend ht hdepth.parts).imp ?_
      rintro _ ⟨us, rfl, hus⟩
      exact hR.inPlace rfl hus

end

/-! ## Whole passes -/

theorem outcome_of_none {body : Block} {s : State} (h : s.error = Option.none) :
    outcome (body, s) = (⟨(s.graph.applyRenames body).1⟩, .ok s.stats) := by
  simp only [outcome, h]

theorem outcome_of_some {body : Block} {s : State} {e : PassError} (h : s.error = Option.some e) :
    outcome (body, s) = (⟨body⟩, .error e) := by
  simp only [outcome, h]

/-- A pass whose walk did not stop. -/
theorem pass_of_run {p : Program} {body : Block} {s : State} (herror : s.error = Option.none)
    (h : (walk table (depthLimit p.body) .block p.body).run { graph := p.scopeGraph } = (body, s)) :
    table.pass p = (⟨(s.graph.applyRenames body).1⟩, .ok s.stats) := by
  rw [RuleTable.pass, h, outcome_of_none herror]

/-- A pass with built-in rules over a program that it can rely on walks the program to its end, or stops. -/
theorem Relies.pass_cases {r : Regime} {φ : Phrase → Prop}
    {named : Tree .function → String → Option Nat → Prop} (htable : table.Offers bs helpers)
    (hφ : Relies r table helpers φ named) {R : (c : Category) → Tree c → Tree c → Prop}
    (hR : Admits bs named R) {p : Program} (hstart : r.Going { graph := p.scopeGraph })
    (hp : p.body.Everywhere φ) :
    (∃ body s, r.Going s ∧ R .block p.body body ∧
      table.pass p = (⟨(s.graph.applyRenames body).1⟩, .ok s.stats)) ∨
    ∃ body e, r.Stops e ∧ table.pass p = (⟨body⟩, .error e) := by
  have hdepth : Within (depthLimit p.body) p.body := (within_size p.body).mono (Nat.le_add_right _ _)
  have hyields := yields_walk htable hφ hR hp hdepth { graph := p.scopeGraph } hstart
  rcases hrun : (walk table (depthLimit p.body) .block p.body).run { graph := p.scopeGraph } with ⟨body, s⟩
  rw [hrun] at hyields
  rcases hyields with ⟨hgoing, hR⟩ | ⟨e, herror, hE⟩
  · exact .inl ⟨body, s, hgoing, hR, pass_of_run (r.running hgoing) hrun⟩
  · replace herror : s.error = Option.some e := herror
    refine .inr ⟨body, e, hE, ?_⟩
    rw [RuleTable.pass, hrun, outcome_of_some herror]

/-- A pass with built-in rules walks the program to its end, or stops at an interop helper without a
binding. -/
theorem pass_cases (htable : table.Offers bs helpers) {R : (c : Category) → Tree c → Tree c → Prop}
    (hR : Admits bs (fun fn _ _ => Turns table helpers fn) R) {p : Program} (hp : p.body.holes = []) :
    (∃ body s, (Regime.loose helpers p.scopeGraph).Going s ∧ R .block p.body body ∧
      table.pass p = (⟨(s.graph.applyRenames body).1⟩, .ok s.stats)) ∨
    ∃ body e, (Regime.loose helpers p.scopeGraph).Stops e ∧ table.pass p = (⟨body⟩, .error e) :=
  (relies_hole? table helpers p.scopeGraph).pass_cases htable hR ⟨rfl, fun _ => rfl⟩
    (holes_eq_nil_iff.mp hp)

/-! ## Walks with nothing to do -/

/-- No step changes the phrase. -/
def Idle (table : RuleTable) : (c : Category) → Tree c → Prop
  | .block, b => sweep table b.statements = pure b.statements ∧ splice b.statements = b.statements
  | .stmt, s => simplifyStmt table s = pure s
  | .body, b => coerced b.bodyStmt = b.bodyStmt
  | .expr, e => applyToExpr table e = pure e
  | _, _ => True

theorem walkAll_eq_pure {m : Type → Type} [Monad m] [LawfulMonad m] {c : Category}
    {f : (c : Category) → Tree c → m (Tree c)} {ps : List Phrase} (h : ∀ p ∈ ps, f p.1 p.2 = pure p.2) (build : List Phrase → Tree c) :
    walkAll f ps build = pure (build ps) := by
  induction ps generalizing build with
  | nil => rfl
  | cons p ps ih =>
    rw [walkAll, h p List.mem_cons_self, pure_bind, ih fun q hq => h q (List.mem_cons_of_mem _ hq)]

theorem descend_eq_pure {depth : Nat}
    (hwalk : ∀ c (t : Tree c), t.size ≤ depth → (∀ q ∈ t.reached, Idle table q.1 q.2) →
      walk table depth c t = pure t) {c : Category} (t : Tree c) (hsize : t.size ≤ depth + 1)
    (hidle : ∀ p ∈ t.visited, ∀ q ∈ p.2.reached, Idle table q.1 q.2) :
    t.descend (hookAt table depth) = pure t := by
  induction t using induction_on_parts with
  | step c t ih =>
    rw [descend_eq, walkAll_eq_pure, rebuild_visited]
    intro p hp
    have hlt := size_lt_of_visited hp
    rw [hookAt]
    split
    · exact hwalk p.1 p.2 (by omega) (hidle p hp)
    · exact ih p (mem_parts_of_visited hp) (by omega) (forall_reached.mp (hidle p hp)).2

theorem unlessStopped_pure {α : Type} (a : α) :
    (do if ← stopped then return a else pure a : Pass α) = pure a := by
  funext s
  show (if s.error.isSome = true then (pure a : Pass α) else pure a) s = _
  rw [ite_self]

/-- A walk over a phrase at which no step has anything to do changes nothing. -/
theorem walk_eq_pure {depth : Nat} {c : Category} {t : Tree c} (hsize : t.size ≤ depth)
    (hidle : ∀ q ∈ t.reached, Idle table q.1 q.2) : walk table depth c t = pure t := by
  induction depth generalizing c t with
  | zero =>
    rw [size_eq_length, reached_eq] at hsize
    cases hsize
  | succ depth ih =>
    have hself := hidle _ t.self_mem_reached
    have hdescend : t.descend (hookAt table depth) = pure t :=
      descend_eq_pure (fun _ _ hsize hidle => ih hsize hidle) t hsize (forall_reached.mp hidle).2
    rw [walk_succ]
    cases c with
    | block =>
      cases t with
      | stmts items =>
        have hblock : blockOf (stmts items).statements = stmts items := congrArg stmts (ofList_toList items)
        simp only [visitWith, hself.1, pure_bind, hblock, hdescend, hself.2]
        exact unlessStopped_pure _
    | body =>
      cases t with
      | body s =>
        simp only [visitWith, hdescend, pure_bind]
        cases s with
        | sequence inner => cases hself
        | _ => rfl
    | stmt =>
      simp only [visitWith]
      rw [show simplifyStmt table t = pure t from hself]
      simp only [pure_bind, hdescend]
      exact unlessStopped_pure _
    | expr =>
      simp only [visitWith]
      rw [show applyToExpr table t = pure t from hself]
      simp only [pure_bind, hdescend]
      exact unlessStopped_pure _
    | _ => exact hdescend

end Pass

/-! ## Passes to a given depth -/

/-- One pass over a program, to a given depth. -/
def RuleTable.passTo (table : RuleTable) (depth : Nat) (p : Program) : Program × Except PassError Stats :=
  Pass.outcome ((Pass.walk table depth .block p.body).run { graph := p.scopeGraph })

end Unminify
