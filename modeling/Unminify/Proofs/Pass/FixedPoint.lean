import Unminify.Proofs.Pass.Settled
import Unminify.Proofs.Scope.Renamed
import Unminify.Proofs.Scope.Resolution

/-!
# Passes that change nothing

When a second pass with the same built-in rules finds nothing to do (`settlesAtOnce_iff`): always,
unless a rule makes an `if` of a branch and a rule for chains of `if`s is for the `if` around it.

The first pass leaves a settled program. Each step of the second pass then gives back the phrase that
it is given: a rule that does apply makes the same phrase again, which counts as no change as long as
no number is NaN. No name changes either, since without interop helpers no binding is renamed.

In the other case the `if` around has been left alone before the branch became an `if`, and is the
beginning of a chain afterwards (`ne_of_walked_chain`).
-/

namespace Unminify

namespace Pass

open Tree

variable {table : RuleTable} {bs : List Builtin}

/-! ## What lasts -/

section

variable {φ : Phrase → Prop} {named : Tree .function → String → Option Nat → Prop}

theorem everywhere_members {s : Stmt} (h : s.Everywhere φ) : ∀ t ∈ members s, t.Everywhere φ := by
  intro t ht
  cases s with
  | sequence inner =>
    have hinner : inner.Everywhere φ := h.part List.mem_cons_self
    exact hinner.reached (mem_reached_of_statements ht)
  | _ =>
    rw [List.mem_singleton.mp ht]
    exact h

theorem everywhere_splice {ss : List Stmt} (h : ∀ s ∈ ss, s.Everywhere φ) :
    ∀ s ∈ splice ss, s.Everywhere φ := by
  induction ss using splice.induct with
  | case1 =>
    rw [splice]
    exact h
  | case2 inner rest ih =>
    rw [splice]
    refine ih fun s hs => ?_
    rcases List.mem_append.mp hs with hs | hs
    · have hsequence : (sequence inner).Everywhere φ := h _ List.mem_cons_self
      have hinner : inner.Everywhere φ := hsequence.part List.mem_cons_self
      exact hinner.reached (mem_reached_of_statements hs)
    · exact h s (List.mem_cons_of_mem _ hs)
  | case3 s rest hne ih =>
    rw [splice]
    · refine List.forall_mem_cons.mpr ⟨h s List.mem_cons_self, ?_⟩
      exact ih fun s hs => h s (List.mem_cons_of_mem _ hs)
    · exact hne

theorem everywhere_of_related (hφ : Lasting φ) {c : Category} {t : Tree c} {us : List Phrase}
    (h : Related (fun _ t u => t.Everywhere φ → u.Everywhere φ) t.visited us) (ht : t.Everywhere φ) :
    (t.rebuild us).Everywhere φ := by
  refine everywhere_rebuild h.aligned.symm ht (hφ.rebuild us ht.self) fun u hu => ?_
  obtain ⟨t', ht', hkept⟩ := h.exists_of_mem hu
  exact hkept (ht.part (mem_parts_of_visited ht'))

/-- A walk keeps lasting conditions. -/
theorem admits_everywhere (hφ : Lasting φ) :
    Admits bs named fun _ t u => t.Everywhere φ → u.Everywhere φ where
  inPlace _ h ht := everywhere_of_related hφ h ht
  block {items us} h ht := by
    have hus : us.Everywhere φ := h (ht.part List.mem_cons_self)
    have hsplice := everywhere_splice fun s hs => hus.reached (mem_reached_of_toList hs)
    exact hφ.pervasive.everywhere_form rfl
      (each_cons (hφ.pervasive.everywhere_ofList.mpr hsplice) each_nil)
  body {s u} h ht := by
    have hu := h (ht.part List.mem_cons_self)
    cases u with
    | sequence inner =>
      have hblock : (blockStmt inner).Everywhere φ :=
        hφ.pervasive.everywhere_form rfl (each_cons (hu.part List.mem_cons_self) each_nil)
      exact hφ.pervasive.everywhere_form rfl (each_cons hblock each_nil)
    | _ => exact hφ.pervasive.everywhere_form rfl (each_cons hu each_nil)
  stmt h ht := everywhere_of_related hφ h (Builtin.everywhere_simplified hφ.pervasive ht)
  helper {_ name id _} _ h _ := everywhere_of_related hφ h (Builtin.everywhere_interopHelper hφ name id)
  expr h ht := everywhere_of_related hφ h (Builtin.everywhere_spelled hφ.pervasive ht)

end

/-! ## Settled phrases -/

/-- What a pass with built-in rules leaves: a settled phrase without holes and NaNs. -/
structure Finished (bs : List Builtin) {c : Category} (t : Tree c) : Prop where
  settled : Builtin.Settled bs t
  holes : t.holes = []
  nan : t.NaNFree

theorem Finished.reached {c : Category} {t : Tree c} (h : Finished bs t) {q : Phrase}
    (hq : q ∈ t.reached) : Finished bs q.2 where
  settled := h.settled.reached hq
  holes := holes_eq_nil_iff.mpr ((holes_eq_nil_iff.mp h.holes).reached hq)
  nan := Everywhere.reached h.nan hq

theorem Finished.part {c : Category} {t : Tree c} (h : Finished bs t) {p : Phrase}
    (hp : p ∈ t.visited) : Finished bs p.2 :=
  h.reached (mem_reached.mpr (.inr ⟨p, hp, self_mem_reached p.2⟩))

theorem splice_eq_self {ss : List Stmt} (h : ∀ s ∈ ss, ∀ inner, s ≠ .sequence inner) :
    splice ss = ss := by
  induction ss with
  | nil => rw [splice]
  | cons s ss ih =>
    rw [splice, ih fun s hs => h s (List.mem_cons_of_mem _ hs)]
    exact h s List.mem_cons_self

/-- No step has anything to do at a phrase that a pass has left. -/
theorem Finished.idle (htable : table.Offers bs false) {c : Category} {t : Tree c}
    (h : Finished bs t) : Idle table c t := by
  have hcalm := (Builtin.settled_iff.mp h.settled).1
  cases c with
  | block =>
    refine ⟨sweep_eq_pure htable _, splice_eq_self fun s hs => ?_⟩
    exact (h.settled.reached (mem_reached_of_statements hs)).ne_sequence
  | body =>
    cases t with
    | body s =>
      have hs : Finished bs s := h.part List.mem_cons_self
      cases s with
      | sequence inner => exact absurd rfl (hs.settled.ne_sequence inner)
      | _ => rfl
  | stmt =>
    have hne : ∀ parts, t ≠ .exprStmt (.comma parts) := by
      rintro parts rfl
      cases hcalm.2
    exact simplifyStmt_eq_pure htable h.holes h.nan hne ((simplified_of_ne hne).symm.trans hcalm.2)
  | expr => exact applyToExpr_eq_pure htable (Builtin.spelled_eq_self_iff.mp hcalm)
  | _ => trivial

theorem walk_of_finished (htable : table.Offers bs false) {c : Category} {t : Tree c}
    (h : Finished bs t) {depth : Nat} (hdepth : t.size ≤ depth) : walk table depth c t = pure t :=
  walk_eq_pure hdepth fun _ hq => (h.reached hq).idle htable

/-! ## Chains that are not finished -/

/-- What a walk makes of a phrase, step by step. -/
inductive Walked (bs : List Builtin) : (c : Category) → Tree c → Tree c → Prop
  | inPlace {c : Category} {t : Tree c} {us : List Phrase} (hc : isActedOn c = false)
      (h : Related (Walked bs) t.visited us) : Walked bs c t (t.rebuild us)
  | block {items us : Tree (.list .stmt)} (h : Walked bs _ items us) :
      Walked bs .block (.stmts items) (blockOf (splice us.toList))
  | body {s u : Stmt} (h : Walked bs .stmt s u) : Walked bs .body (.body s) (.body (coerced u))
  | stmt {s : Stmt} {us : List Phrase} (h : Related (Walked bs) (Builtin.simplified bs s).visited us) :
      Walked bs .stmt s ((Builtin.simplified bs s).rebuild us)
  | expr {e : Expr} {us : List Phrase} (h : Related (Walked bs) (Builtin.spelled bs e).visited us) :
      Walked bs .expr e ((Builtin.spelled bs e).rebuild us)

theorem admits_walked (table : RuleTable) (bs : List Builtin) :
    Admits bs (fun fn _ _ => Turns table false fn) (Walked bs) where
  inPlace := .inPlace
  block := .block
  body := .body
  stmt := .stmt
  helper h := nomatch h.1
  expr := .expr

namespace Walked

theorem exists_stmt {s u : Stmt} (h : Walked bs .stmt s u) :
    ∃ us, Related (Walked bs) (Builtin.simplified bs s).visited us ∧
      u = (Builtin.simplified bs s).rebuild us := by
  cases h with
  | inPlace hc h => cases hc
  | stmt h => exact ⟨_, h, rfl⟩

theorem exists_body {s : Stmt} {b : Tree .body} (h : Walked bs .body (.body s) b) :
    ∃ u, Walked bs .stmt s u ∧ b = .body (coerced u) := by
  cases h with
  | inPlace hc h => cases hc
  | body h => exact ⟨_, h, rfl⟩

theorem exists_some {b : Tree .body} {v : Tree (.option .body)}
    (h : Walked bs (.option .body) (.some b) v) : ∃ u, Walked bs .body b u ∧ v = .some u := by
  cases h with
  | inPlace _ h =>
    obtain ⟨u, _, rfl, hu, -⟩ := exists_of_related_cons h
    exact ⟨u, hu, rfl⟩

theorem isSome_eq {c : Category} {t u : Tree (.option c)} (h : Walked bs _ t u) :
    u.toOption.isSome = t.toOption.isSome := by
  cases h with
  | inPlace _ h => cases t <;> rfl

/-- A statement alone in a list stays alone, unless it becomes a sequence. -/
theorem exists_singleton {s : Stmt} {v : Block} (h : Walked bs .block (blockOf [s]) v) :
    ∃ u, Walked bs .stmt s u ∧ v = blockOf (splice [u]) := by
  cases h with
  | inPlace hc h => cases hc
  | block h =>
    replace h : Walked bs _ (.cons s .nil) _ := h
    cases h with
    | inPlace _ h =>
      obtain ⟨u, _, rfl, hu, h⟩ := exists_of_related_cons h
      obtain ⟨rest, _, rfl, hrest, -⟩ := exists_of_related_cons h
      cases hrest with
      | inPlace _ h => exact ⟨u, hu, rfl⟩

theorem fork_eq {s u : Stmt} (h : Walked bs .stmt s u) : u.fork = (Builtin.simplified bs s).fork := by
  obtain ⟨us, hus, rfl⟩ := h.exists_stmt
  clear h
  generalize Builtin.simplified bs s = s at hus
  cases s with
  | ifStmt test consequent alternate =>
    obtain ⟨test', _, rfl, -, hus⟩ := exists_of_related_cons hus
    obtain ⟨consequent', _, rfl, -, hus⟩ := exists_of_related_cons hus
    obtain ⟨alternate', _, rfl, halternate, -⟩ := exists_of_related_cons hus
    exact congrArg Option.some halternate.isSome_eq
  | _ => rfl

theorem isBlock_eq {s : Stmt} {b : Tree .body} (h : Walked bs .body (.body s) b) :
    b.isBlock = (Tree.body (coerced (Builtin.simplified bs s))).isBlock := by
  obtain ⟨u, hu, rfl⟩ := h.exists_body
  obtain ⟨us, -, rfl⟩ := hu.exists_stmt
  cases Builtin.simplified bs s <;> rfl

/-- What becomes of an `if` with another branch, while no rule takes it out of its form. -/
theorem exists_ifStmt {test : Expr} {consequent alternate : Tree .body} {s u : Stmt}
    (hs : Builtin.simplified bs s = .ifStmt test consequent (.some alternate))
    (h : Walked bs .stmt s u) :
    ∃ test' consequent' alternate', Walked bs .body consequent consequent' ∧
      Walked bs .body alternate alternate' ∧ u = .ifStmt test' consequent' (.some alternate') := by
  obtain ⟨us, hus, rfl⟩ := h.exists_stmt
  rw [hs] at hus ⊢
  obtain ⟨test', _, rfl, -, hus⟩ := exists_of_related_cons hus
  obtain ⟨consequent', _, rfl, hconsequent, hus⟩ := exists_of_related_cons hus
  obtain ⟨option', _, rfl, hoption, -⟩ := exists_of_related_cons hus
  obtain ⟨alternate', halternate, rfl⟩ := hoption.exists_some
  exact ⟨test', consequent', alternate', hconsequent, halternate, rfl⟩

end Walked

theorem fork_coerced (s : Stmt) : (coerced s).fork = s.fork := by
  cases s <;> rfl

/-- The one rule of a list that accepts a statement is the one that is picked. -/
theorem pick_eq_some {s : Stmt} {b : Builtin} (hb : b ∈ bs) (haccepts : b.accepts s.silhouette = true)
    (honly : ∀ b' ∈ bs, b'.accepts s.silhouette = true → b' = b) :
    Builtin.pick bs s = Option.some b := by
  cases hpick : Builtin.pick bs s with
  | none => exact absurd haccepts (List.find?_eq_none.mp hpick b hb)
  | some b' => rw [honly b' (Builtin.mem_of_pick hpick) (accepts_of_pick hpick)]

section

variable {test : Expr} {consequent alternate : Tree .body}

/-- Only the rule for other branches is for an `if` with a branch that is no `if`. -/
theorem simplified_branch (hmissing : Builtin.ifElse ∉ bs)
    (halternate : alternate.bodyStmt.fork = Option.none) :
    Builtin.simplified bs (.ifStmt test consequent (.some alternate)) =
      .ifStmt test consequent (.some alternate) := by
  refine Builtin.reshaped_of_pick_none (List.find?_eq_none.mpr fun b hb haccepts => ?_)
  replace haccepts : b.accepts (.branch (Option.some alternate.bodyStmt.fork)) = true := haccepts
  rw [halternate] at haccepts
  cases b with
  | ifElse => exact hmissing hb
  | _ => cases haccepts

/-- The rule for a chain puts its first branch in braces. -/
theorem simplified_chain (hmissing : Builtin.ifElse ∉ bs) {f : Bool}
    (hchain : cond f Builtin.elseIfElse Builtin.elseIf ∈ bs)
    (halternate : alternate.bodyStmt.fork = Option.some f) :
    Builtin.simplified bs (.ifStmt test consequent (.some alternate)) =
      .ifStmt test consequent.braced (.some alternate) := by
  have hsilhouette : (ifStmt test consequent (.some alternate)).silhouette =
      .branch (Option.some (Option.some f)) :=
    congrArg (fun f => Silhouette.branch (Option.some f)) halternate
  have hpick : Builtin.pick bs (.ifStmt test consequent (.some alternate)) =
      Option.some (cond f .elseIfElse .elseIf) := by
    refine pick_eq_some hchain ?_ fun b hb haccepts => ?_
    · rw [hsilhouette]
      cases f <;> rfl
    · rw [hsilhouette] at haccepts
      cases b with
      | ifElse => exact absurd hb hmissing
      | elseIf => cases f <;> first | rfl | cases haccepts
      | elseIfElse => cases f <;> first | rfl | cases haccepts
      | _ => cases haccepts
  refine (Builtin.reshaped_of_pick hpick).trans ?_
  cases f <;> rfl

end

/-- A branch that becomes an `if`, without braces, is the rest of a chain in the next walk. -/
theorem ne_of_walked_chain (hmissing : Builtin.ifElse ∉ bs) {f : Bool}
    (hchain : cond f Builtin.elseIfElse Builtin.elseIf ∈ bs) {e : Stmt} (he : e.fork = Option.none)
    (hf : (Builtin.simplified bs e).fork = Option.some f) {test : Expr} {n : Name} {v v' : Block}
    (h : Walked bs .block
      (blockOf [.ifStmt test (.body (.exprStmt (.identExpr n))) (.some (.body e))]) v)
    (h' : Walked bs .block v v') : v' ≠ v := by
  have hlone : ∀ {test consequent alternate},
      splice [ifStmt test consequent alternate] = [ifStmt test consequent alternate] := by
    intro test consequent alternate
    refine splice_eq_self fun s hs => ?_
    rw [List.mem_singleton.mp hs]
    exact nofun
  -- the first walk leaves the `if` and its first branch as they are
  have hbranch : Builtin.simplified bs
      (.ifStmt test (.body (.exprStmt (.identExpr n))) (.some (.body e))) = _ :=
    simplified_branch hmissing he
  obtain ⟨u, hu, rfl⟩ := h.exists_singleton
  obtain ⟨test₁, consequent₁, alternate₁, hconsequent₁, halternate₁, rfl⟩ := hu.exists_ifStmt hbranch
  have hopen : consequent₁.isBlock = false := by
    have hident : Builtin.simplified bs (.exprStmt (.identExpr n)) = .exprStmt (.identExpr n) :=
      Builtin.simplified_of_other nofun rfl
    rw [hconsequent₁.isBlock_eq, hident]
    rfl
  have hfork : alternate₁.bodyStmt.fork = Option.some f := by
    obtain ⟨w, hw, rfl⟩ := halternate₁.exists_body
    exact (fork_coerced w).trans (hw.fork_eq.trans hf)
  -- the second one puts that branch in braces
  rw [hlone] at h' ⊢
  obtain ⟨u', hu', rfl⟩ := h'.exists_singleton
  obtain ⟨test₂, consequent₂, alternate₂, hconsequent₂, -, rfl⟩ :=
    hu'.exists_ifStmt (simplified_chain hmissing hchain hfork)
  have hblock : consequent₂.isBlock = true := by
    obtain ⟨inner, hinner⟩ := Builtin.exists_of_isBlock (Builtin.isBlock_braced consequent₁)
    have hstays : Builtin.simplified bs (.blockStmt inner) = .blockStmt inner :=
      Builtin.simplified_of_other nofun rfl
    rw [hinner] at hconsequent₂
    rw [hconsequent₂.isBlock_eq, hstays]
    rfl
  rw [hlone]
  intro heq
  have hstmt := (List.cons.inj (congrArg statements heq)).1
  rw [(ifStmt.inj hstmt).2.1, hopen] at hblock
  cases hblock

end Pass

/-! ## Names that stay -/

namespace ScopeGraph

open Tree

variable {g : ScopeGraph}

/-- In a graph whose bindings have the names they were declared with, there is nothing to rename. -/
theorem Sound.renamedBinding?_eq_none (hg : g.Sound) (ident : Name) :
    g.renamedBinding? ident = Option.none := by
  rw [Option.eq_none_iff_forall_not_mem]
  intro x hx
  simp only [renamedBinding?, Option.mem_def, Option.bind_eq_bind, Option.bind_eq_some_iff] at hx
  obtain ⟨id, -, b, -, y, hy, hrenamed⟩ := hx
  have hname := hg.unrenamed b y hy
  simp [Binding.isRenamed, hname] at hrenamed

theorem Sound.renameName_eq_self (hg : g.Sound) (n : Name) : g.renameName n = n := by
  cases n with
  | ident text id => rw [renameName, hg.renamedBinding?_eq_none]; rfl
  | nameHole i => rfl

theorem Sound.renamed_eq_self (hg : g.Sound) {c : Category} (t : Tree c) : g.renamed t = t := by
  induction t using induction_on_parts with
  | step c t ih =>
    have hstep : g.renameStep c t (fun _ => t.descend g.renameStep) = t.descend g.renameStep := by
      cases t with
      | ident text id => exact hg.renameName_eq_self (.ident text id)
      | shorthand ident => simp only [renameStep, hg.renamedBinding?_eq_none]
      | shortBinder ident value => simp only [renameStep, hg.renamedBinding?_eq_none]
      | _ => rfl
    show g.renameStep c t (fun _ => t.descend g.renameStep) = t
    rw [hstep, descend_eq]
    refine (Pass.walkAll_eq_pure (m := Id) (fun p hp => ?_) t.rebuild).trans (rebuild_visited t)
    exact ih p (mem_parts_of_visited hp)

end ScopeGraph

/-! ## Sub-tables -/

/-- No two built-in rules have the same name. -/
theorem Builtin.name_inj {b b' : Builtin} (h : b.name = b'.name) : b = b' := by
  have hall : ∀ b ∈ all, ∀ b' ∈ all, b.name = b'.name → b = b' := by decide +kernel
  exact hall b (mem_all b) b' (mem_all b') h

namespace RuleTable

variable {full table : RuleTable}

/-- Whether no rule of a table makes an `if` out of a branch that another one takes for the rest of a
chain: the branch is in braces by then, or one of the two rules is missing. -/
def FinishesChains (table : RuleTable) : Prop :=
  "if-else-braces" ∈ table.names ∨
    ¬(("and-statement" ∈ table.names ∨ "or-statement" ∈ table.names) ∧
        "if-else-if-braces" ∈ table.names) ∧
      ¬("ternary-statement" ∈ table.names ∧ "if-else-if-else-braces" ∈ table.names)

instance (table : RuleTable) : Decidable table.FinishesChains :=
  inferInstanceAs (Decidable (_ ∨ ¬((_ ∨ _) ∧ _) ∧ ¬(_ ∧ _)))

/-- A table with some of the built-in rules, perhaps the one for interop helpers among them. -/
theorem offers_of_sublist (hfull : builtin = .ok full) (hsub : table.rules.Sublist full.rules) :
    ∃ bs helpers, table.Offers bs helpers ∧
      (helpers = true → "interop-require-default" ∈ table.names) := by
  rw [builtin_eq] at hfull
  cases hfull
  obtain ⟨l, r, hrules, hl, hr⟩ := List.sublist_append_iff.mp hsub
  obtain ⟨bs, -, rfl⟩ := List.sublist_map_iff.mp hl
  cases hr with
  | cons _ hnil =>
    cases hnil
    exact ⟨bs, false, hrules, nofun⟩
  | cons_cons _ hnil =>
    cases hnil
    refine ⟨bs, true, hrules, fun _ => ?_⟩
    rw [names, hrules, List.map_append]
    exact List.mem_append_right _ List.mem_cons_self

/-- A table with some of the built-in rules, but not the one for interop helpers. -/
theorem exists_offers (hfull : builtin = .ok full) (hsub : table.rules.Sublist full.rules)
    (hhelper : "interop-require-default" ∉ table.names) : ∃ bs, table.Offers bs false := by
  obtain ⟨bs, helpers, htable, hhelpers⟩ := offers_of_sublist hfull hsub
  cases helpers with
  | false => exact ⟨bs, htable⟩
  | true => exact absurd (hhelpers rfl) hhelper

theorem mem_names {bs : List Builtin} (htable : table.Offers bs false) {b : Builtin} :
    b.name ∈ table.names ↔ b ∈ bs := by
  have hnames : table.names = bs.map Builtin.name := by
    rw [names, htable, cond_false, List.append_nil, List.map_map]
    rfl
  rw [hnames, List.mem_map]
  constructor
  · rintro ⟨b', hb', hname⟩
    exact Builtin.name_inj hname ▸ hb'
  · exact fun hb => ⟨b, hb, rfl⟩

theorem coherent_iff {bs : List Builtin} (htable : table.Offers bs false) :
    Builtin.Coherent bs ↔ table.FinishesChains := by
  rw [Builtin.Coherent, ← mem_names htable, ← mem_names htable, ← mem_names htable,
    ← mem_names htable, ← mem_names htable, ← mem_names htable]
  rfl

/-- A pass comes to its end, and the next one finds nothing to do: it reports no change and gives the
same program back. -/
def SettlesAtOnce (table : RuleTable) (p : Program) : Prop :=
  ∃ p' stats stats', table.pass p = (p', .ok stats) ∧ table.pass p' = (p', .ok stats') ∧
    stats'.changed = false

section

variable {bs : List Builtin} {p : Program}

/-- A pass without the rule for interop helpers comes to its end and renames nothing. -/
theorem exists_pass (htable : table.Offers bs false) {R : (c : Category) → Tree c → Tree c → Prop}
    (hR : Pass.Admits bs (fun fn _ _ => Pass.Turns table false fn) R) (hholes : p.body.holes = []) :
    ∃ p' stats, R .block p.body p'.body ∧ table.pass p = (p', .ok stats) := by
  rcases Pass.pass_cases htable hR hholes with
    ⟨body, s, hgoing, hbody, hpass⟩ | ⟨body, e, ⟨hhelpers, -⟩, -⟩
  · refine ⟨⟨body⟩, s.stats, hbody, ?_⟩
    rw [hpass, ScopeGraph.fst_applyRenames, hgoing.2 rfl, p.sound_and_housed.1.renamed_eq_self]
  · cases hhelpers

theorem pass_of_finished (htable : table.Offers bs false) (h : Pass.Finished bs p.body) :
    table.pass p = (p, .ok {}) := by
  have hsize : p.body.size ≤ Pass.depthLimit p.body := by
    rw [Pass.depthLimit]
    omega
  have hwalk : (Pass.walk table (Pass.depthLimit p.body) .block p.body).run { graph := p.scopeGraph } =
      (p.body, { graph := p.scopeGraph }) := by
    rw [Pass.walk_of_finished htable h hsize]
    rfl
  rw [Pass.pass_of_run rfl hwalk, ScopeGraph.fst_applyRenames, p.sound_and_housed.1.renamed_eq_self]

theorem settlesAtOnce_of_coherent (htable : table.Offers bs false) (hcoherent : Builtin.Coherent bs)
    (hholes : p.body.holes = []) (hnan : p.body.NaNFree) : table.SettlesAtOnce p := by
  obtain ⟨p', stats, ⟨⟨hsettled, -⟩, hholes', hnan'⟩, hpass⟩ := exists_pass htable
    ((Builtin.admits_becomes hcoherent).and
      ((Pass.admits_everywhere Tree.lasting_hole?).and (Pass.admits_everywhere Tree.lasting_nan))) hholes
  have hfinished : Pass.Finished bs p'.body :=
    ⟨hsettled, Tree.holes_eq_nil_iff.mpr (hholes' (Tree.holes_eq_nil_iff.mp hholes)), hnan' hnan⟩
  exact ⟨p', stats, {}, hpass, pass_of_finished htable hfinished, rfl⟩

end

section

variable {bs : List Builtin}

/-- An identifier as an expression. -/
def operand (text : String) (id : Nat) : Expr := .identExpr (.ident text (some id))

/-- `if (a) b; else` and an expression. -/
def branchUse (e : Expr) : Program where
  body := Tree.blockOf [.ifStmt (operand "a" 4) (.body (.exprStmt (operand "b" 7)))
    (.some (.body (.exprStmt e)))]

theorem not_settlesAtOnce_branchUse (htable : table.Offers bs false)
    (hmissing : Builtin.ifElse ∉ bs) {f : Bool}
    (hchain : cond f Builtin.elseIfElse Builtin.elseIf ∈ bs) {e : Expr}
    (hf : (Builtin.simplified bs (.exprStmt e)).fork = some f)
    (hholes : (branchUse e).body.holes = []) : ¬table.SettlesAtOnce (branchUse e) := by
  rintro ⟨p', stats, stats', hpass, hpass', -⟩
  have hadmits := (Pass.admits_walked table bs).and (Pass.admits_everywhere Tree.lasting_hole?)
  obtain ⟨q, _, ⟨hwalked, hholes'⟩, hq⟩ := exists_pass htable hadmits hholes
  obtain rfl : p' = q := congrArg Prod.fst (hpass.symm.trans hq)
  have hholes'' := Tree.holes_eq_nil_iff.mpr (hholes' (Tree.holes_eq_nil_iff.mp hholes))
  obtain ⟨q', _, hwalked', hq'⟩ := exists_pass htable (Pass.admits_walked table bs) hholes''
  obtain rfl : p' = q' := congrArg Prod.fst (hpass'.symm.trans hq')
  exact Pass.ne_of_walked_chain hmissing hchain rfl hf hwalked hwalked' rfl

/-- The only rule for an expression used as a statement decides what becomes of it. -/
theorem simplified_of_mem {b : Builtin} (hb : b ∈ bs) {e : Expr} (hne : ∀ parts, e ≠ .comma parts)
    (haccepts : b.accepts (Tree.exprStmt e).silhouette = true)
    (honly : ∀ b' ∈ Builtin.all, b'.accepts (Tree.exprStmt e).silhouette = true → b' = b) :
    Builtin.simplified bs (.exprStmt e) = b.recast (.exprStmt e) := by
  rw [Pass.simplified_of_ne fun parts h => hne parts (Tree.exprStmt.inj h)]
  exact Builtin.reshaped_of_pick
    (Pass.pick_eq_some hb haccepts fun b' _ => honly b' (Builtin.mem_all b'))

/-- If a rule makes an `if` that another one takes for the rest of a chain, some program shows it. -/
theorem exists_not_settlesAtOnce (htable : table.Offers bs false) (h : ¬Builtin.Coherent bs) :
    ∃ p : Program, p.body.holes = [] ∧ p.body.NaNFree ∧ ¬table.SettlesAtOnce p := by
  obtain ⟨hmissing, hrest⟩ := not_or.mp h
  have hcauses : (Builtin.andStatement ∈ bs ∨ Builtin.orStatement ∈ bs) ∧ Builtin.elseIf ∈ bs ∨
      Builtin.ternaryStatement ∈ bs ∧ Builtin.elseIfElse ∈ bs := by
    refine Decidable.of_not_not fun hnone => hrest ?_
    exact not_or.mp hnone
  rcases hcauses with ⟨hand | hor, hchain⟩ | ⟨hternary, hchain⟩
  · have hif : Builtin.simplified bs (.exprStmt (.binary .and (operand "x" 15) (operand "y" 20))) = _ :=
      simplified_of_mem hand nofun rfl (by decide)
    exact ⟨_, by decide, by decide, not_settlesAtOnce_branchUse (f := false) htable hmissing hchain
      (congrArg Tree.fork hif) (by decide)⟩
  · have hif : Builtin.simplified bs (.exprStmt (.binary .or (operand "x" 15) (operand "y" 20))) = _ :=
      simplified_of_mem hor nofun rfl (by decide)
    exact ⟨_, by decide, by decide, not_settlesAtOnce_branchUse (f := false) htable hmissing hchain
      (congrArg Tree.fork hif) (by decide)⟩
  · have hif : Builtin.simplified bs
        (.exprStmt (.conditional (operand "x" 15) (operand "y" 19) (operand "z" 23))) = _ :=
      simplified_of_mem hternary nofun rfl (by decide)
    exact ⟨_, by decide, by decide, not_settlesAtOnce_branchUse (f := true) htable hmissing hchain
      (congrArg Tree.fork hif) (by decide)⟩

end

/-- **When a second pass changes nothing.** Take any of the built-in rules, without the one for interop
helpers. They finish chains if and only if for all programs without holes and NaNs, a pass comes to
its end, and a pass over the result reports no change and gives the same program back. -/
theorem settlesAtOnce_iff (hfull : builtin = .ok full) (hsub : table.rules.Sublist full.rules)
    (hhelper : "interop-require-default" ∉ table.names) :
    (∀ p : Program, p.body.holes = [] → p.body.NaNFree → table.SettlesAtOnce p) ↔
      table.FinishesChains := by
  obtain ⟨bs, htable⟩ := exists_offers hfull hsub hhelper
  rw [← coherent_iff htable]
  constructor
  · intro h
    refine Decidable.of_not_not fun hcoherent => ?_
    obtain ⟨p, hholes, hnan, hnot⟩ := exists_not_settlesAtOnce htable hcoherent
    exact hnot (h p hholes hnan)
  · intro hcoherent p hholes hnan
    exact settlesAtOnce_of_coherent htable hcoherent hholes hnan

/-- `if (a) b; else x && y;` -/
def andBranch : Program := branchUse (.binary .and (operand "x" 15) (operand "y" 20))

/-- All built-in rules but the one for interop helpers. -/
def helperless : RuleTable := { rules := Builtin.all.map Builtin.rule }

/-- After one pass, `b` and the new `if` are in braces. -/
theorem settlesAtOnce_iff_helperless :
    ∃ full, builtin = .ok full ∧ helperless.rules.Sublist full.rules ∧
      "interop-require-default" ∉ helperless.names ∧ helperless.FinishesChains ∧
      andBranch.body.holes = [] ∧ andBranch.body.NaNFree ∧ helperless.SettlesAtOnce andBranch := by
  have hbuiltin := builtin_eq
  have hsub : helperless.rules.Sublist (Builtin.all.map Builtin.rule ++ [Builtin.interopRule]) :=
    List.sublist_append_left _ _
  have hhelper : "interop-require-default" ∉ helperless.names := by decide +kernel
  have hchains : helperless.FinishesChains := by decide +kernel
  have hholes : andBranch.body.holes = [] := by decide
  have hnan : andBranch.body.NaNFree := by decide
  exact ⟨_, hbuiltin, hsub, hhelper, hchains, hholes, hnan,
    (settlesAtOnce_iff hbuiltin hsub hhelper).mpr hchains andBranch hholes hnan⟩

/-- All built-in rules but the ones for interop helpers and for other branches. -/
def unbraced : RuleTable := { rules := (Builtin.all.erase .ifElse).map Builtin.rule }

/-- Here the first pass makes `if (a) b; else if (x) { y; }`, and a second one puts `b` in braces. -/
theorem not_settlesAtOnce_unbraced :
    ∃ full, builtin = .ok full ∧ unbraced.rules.Sublist full.rules ∧
      "interop-require-default" ∉ unbraced.names ∧ andBranch.body.holes = [] ∧
      andBranch.body.NaNFree ∧ ¬unbraced.SettlesAtOnce andBranch := by
  have htable : unbraced.Offers (Builtin.all.erase .ifElse) false := (List.append_nil _).symm
  have hsub : unbraced.rules.Sublist (Builtin.all.map Builtin.rule ++ [Builtin.interopRule]) :=
    (List.erase_sublist.map Builtin.rule).trans (List.sublist_append_left _ _)
  have hif : Builtin.simplified (Builtin.all.erase .ifElse)
      (.exprStmt (.binary .and (operand "x" 15) (operand "y" 20))) = _ :=
    simplified_of_mem (b := .andStatement) (by decide) nofun rfl (by decide)
  refine ⟨_, builtin_eq, hsub, by decide +kernel, by decide, by decide, ?_⟩
  exact not_settlesAtOnce_branchUse (f := false) htable (by decide) (by decide)
    (congrArg Tree.fork hif) (by decide)

end RuleTable

end Unminify
