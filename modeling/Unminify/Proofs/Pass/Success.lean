import Mathlib.Data.List.Pairwise
import Unminify.Proofs.Pass.Conserved
import Unminify.Proofs.Scope.Accounting

/-!
# Passes that do not stop

Nothing but an interop helper stops a pass with built-in rules: a function that becomes one is given a
name that is free for its binding, so it must have a binding. Renaming takes none away, and a helper has
the position of the function that it was made of. So a pass over a program without holes in which every
function declaration has a binding succeeds (`succeeds_pass`).

In a program that was read, only references have no binding. Hence functions have one if declarations
stand in statement lists and in the heads of loops (`bound_read`): the identifier that a function is
declared by is not a reference as well, since the identifiers of references and definitions are all among
those that walks come to, each once (`mentions_sublist`).
-/

namespace Unminify

namespace Tree

/-! ## Definitions and references -/

/-- The identifier that a phrase defines or refers to. -/
def mentioned? (p : Phrase) : Option Name := p.2.definedName.or p.2.referred?

/-- An identifier that is mentioned is the first part of its phrase. -/
theorem exists_of_mentioned? {c : Category} {t : Tree c} {n : Name}
    (h : mentioned? ⟨c, t⟩ = Option.some n) :
    ∃ p ps, t.visited = p :: ps ∧ p.2.names = [n] ∧ p.2.reached.filterMap mentioned? = [] := by
  have hname : n.reached.filterMap mentioned? = [] := by
    rw [filterMap_reached]
    cases n <;> rfl
  have hsome : (some n : Tree (.option .name)).reached.filterMap mentioned? = [] := by
    rw [filterMap_reached]
    exact (List.append_nil _).trans hname
  cases t with
  | identExpr name =>
    cases h
    exact ⟨_, _, rfl, n.names_name, hname⟩
  | shorthand name =>
    cases h
    exact ⟨_, _, rfl, n.names_name, hname⟩
  | function isAsync isGenerator name params inner =>
    cases name with
    | none => cases h
    | some name =>
      cases h
      exact ⟨_, _, rfl, names_toOption _, hsome⟩
  | classDef name heritage members =>
    cases name with
    | none => cases h
    | some name =>
      cases h
      exact ⟨_, _, rfl, names_toOption _, hsome⟩
  | _ => cases h

/-- The identifiers of definitions and references are among those that walks come to. -/
theorem mentions_sublist {c : Category} (t : Tree c) :
    (t.reached.filterMap mentioned?).Sublist t.names := by
  induction t using induction_on_parts with
  | step c t ih =>
    have hvisited : ∀ p ∈ t.visited, (p.2.reached.filterMap mentioned?).Sublist p.2.names :=
      fun p hp => ih p (mem_parts_of_visited hp)
    rw [filterMap_reached, names_eq]
    cases hself : mentioned? ⟨c, t⟩ with
    | none => exact (List.Sublist.flatMap_right _ hvisited).trans (List.sublist_append_right _ _)
    | some n =>
      obtain ⟨p, ps, hparts, hnames, hnone⟩ := exists_of_mentioned? hself
      rw [hparts] at hvisited ⊢
      rw [List.flatMap_cons, List.flatMap_cons, hnames, hnone]
      refine List.Sublist.trans ?_ (List.sublist_append_right _ _)
      refine (List.Sublist.refl [n]).append (List.Sublist.flatMap_right _ fun q hq => ?_)
      exact hvisited q (List.mem_cons_of_mem _ hq)

/-- No identifier is mentioned by two phrases. -/
theorem eq_of_mentioned? {c : Category} {t : Tree c} (hdistinct : t.names.Nodup) {p q : Phrase}
    (hp : p ∈ t.reached) (hq : q ∈ t.reached) {n : Name} (hpn : mentioned? p = Option.some n)
    (hqn : mentioned? q = Option.some n) : p = q := by
  have hpairs := List.pairwise_filterMap.mp (hdistinct.sublist t.mentions_sublist)
  by_contra hne
  have hsymm : Std.Symm fun p q : Phrase =>
      ∀ n, mentioned? p = Option.some n → ∀ m, mentioned? q = Option.some m → n ≠ m :=
    ⟨fun p q h n hn m hm => (h m hm n hn).symm⟩
  exact hpairs.forall hp hq hne n hpn n hqn rfl

/-- Where dot accesses are named by strings, all functions and classes are reached. -/
theorem mem_reached_of_definedName {c : Category} {t : Tree c}
    (hdot : t.Everywhere fun p => p.2.dotNamed = true) {q : Phrase} (hq : q ∈ t.phrases) {n : Name}
    (hn : q.2.definedName = Option.some n) : q ∈ t.reached := by
  induction t using induction_on_parts with
  | step c t ih =>
    rcases mem_phrases.mp hq with rfl | ⟨p, hp, hq⟩
    · exact self_mem_reached _
    · have hpart := ih p hp (hdot.part hp) hq
      rw [parts_eq, List.mem_append] at hp
      rcases hp with hp | hp
      · exact mem_reached.mpr (.inr ⟨p, hp, hpart⟩)
      · -- a string has no parts and defines nothing
        obtain ⟨text, rfl⟩ := exists_string_of_unvisited hdot.self hp
        rcases mem_phrases.mp hq with rfl | ⟨r, hr, -⟩
        · cases hn
        · cases hr

end Tree

namespace Program

open Tree

variable {source : String} {p : Program}

/-- In a program that was read, the name of every function and every class has a binding, if declarations
stand in statement lists and in the heads of loops. -/
theorem bound_read (h : Program.read source = .ok p) (hlisted : p.body.Listed) {q : Phrase}
    (hq : q ∈ p.body.phrases) {n : Name} (hn : q.2.definedName = Option.some n) :
    ∃ i b, n.nameId? = Option.some i ∧ p.scopeGraph.bindingAt i = Option.some b := by
  have hpositioned := p.positioned_read h
  have hsub := p.body.positions_of_names
  have hids : (p.body.names.map nameId?).Nodup := hpositioned.distinct.sublist hsub
  have hreached := mem_reached_of_definedName (fun r hr => (p.sourced_read h r hr).dotNamed) hq hn
  have hself : mentioned? q = Option.some n := by rw [mentioned?, hn]; rfl
  have hmem : n ∈ p.body.names :=
    p.body.mentions_sublist.subset (List.mem_filterMap.mpr ⟨q, hreached, hself⟩)
  cases hid : n.nameId? with
  | none => exact absurd (hsub.subset (hid ▸ List.mem_map_of_mem hmem)) hpositioned.placed
  | some i =>
    rcases ((accounts_read h hlisted).reached i).mp (hid ▸ List.mem_map_of_mem hmem) with
      ⟨b, hb⟩ | ⟨hreference, -⟩
    · exact ⟨i, b, rfl, hb⟩
    · -- the identifier would be that of a reference as well
      obtain ⟨m, hm, hmid⟩ := List.mem_map.mp hreference
      obtain rfl := List.inj_on_of_nodup_map hids (p.body.references_subset hm) hmem (hmid.trans hid.symm)
      obtain ⟨r, hr, hrefers⟩ := List.mem_filterMap.mp hm
      have hother : mentioned? r = Option.some m := by
        obtain ⟨c, r⟩ := r
        cases r <;> first | exact hrefers | cases hrefers
      obtain rfl := eq_of_mentioned? hids.of_map hreached hr hself hother
      obtain ⟨c, q⟩ := q
      cases q <;> first | cases hn | cases hrefers

end Program

/-! ## Passes -/

namespace Tree

/-- The name of a function declaration. -/
def declaredFunction? : Phrase → Option Name
  | ⟨_, .functionStmt fn⟩ => fn.definedName
  | ⟨_, _⟩ => Option.none

/-- There is no hole, and a function declaration has a binding. -/
def FunctionsBound (g : ScopeGraph) (q : Phrase) : Prop :=
  q.2.hole? = Option.none ∧ ∀ n, declaredFunction? q = Option.some n →
    ∃ i b, n.nameId? = Option.some i ∧ g.bindingAt i = Option.some b

theorem pervasive_bound (g : ScopeGraph) : Pervasive (FunctionsBound g) where
  made {c t} h := by
    refine ⟨lasting_hole?.pervasive.made h, fun n hn => ?_⟩
    cases t <;> first | cases hn | cases h

end Tree

namespace Builtin

open Tree

theorem everywhere_bound_interopHelper {g : ScopeGraph} {i : Nat} {b : BindingId}
    (hb : g.bindingAt i = some b) (name : String) :
    (interopHelper (.ident name (some i)) (.ident "obj" none)).Everywhere (FunctionsBound g) := by
  have hholes := everywhere_interopHelper lasting_hole? name (some i)
  have hdeclared : (interopHelper (.ident name (some i)) (.ident "obj" none)).phrases.filterMap declaredFunction? =
      [.ident name (some i)] := rfl
  intro q hq
  refine ⟨hholes q hq, fun n hn => ?_⟩
  have hmem := List.mem_filterMap.mpr ⟨q, hq, hn⟩
  rw [hdeclared, List.mem_singleton] at hmem
  subst hmem
  exact ⟨i, b, rfl, hb⟩

/-- A function that becomes a helper has a name. -/
theorem exists_name_of_interopRule {options : MatchOptions} {fn : Tree .function}
    (h : (interopRule.applyToStmt? options (.functionStmt fn)).isSome = true) :
    ∃ isAsync isGenerator declared params inner,
      fn = .function isAsync isGenerator (.some declared) params inner := by
  obtain ⟨env, hmatch⟩ := matches_of_interopRule h
  obtain ⟨-, hfn⟩ := (Pattern.matches_of_compare rfl).mp hmatch
  cases hfn with
  | cons hfn _ =>
    cases fn with
    | function isAsync isGenerator name params inner =>
      obtain ⟨-, hparts⟩ := (Pattern.matches_of_compare rfl).mp hfn
      cases hparts with
      | cons hname _ =>
        cases name with
        | none => cases ((Pattern.matches_of_compare rfl).mp hname).1
        | some declared => exact ⟨_, _, _, _, _, rfl⟩

end Builtin

namespace Pass

open Tree

/-- No identifier loses its binding, and nothing stops the pass. -/
def Regime.bound (first : ScopeGraph) : Regime where
  Going s := s.error = Option.none ∧ s.graph.occurrences = first.occurrences
  Stops _ := False
  running := And.left
  counting _ := id

/-- A function that has a binding is given a name for it, and keeps its position. -/
theorem names_bound {first : ScopeGraph} {isAsync isGenerator : Bool} {declared : Name}
    {params : Tree (.list .binder)} {inner : Block} {i : Nat} {b : BindingId}
    (hi : declared.nameId? = some i) (hb : first.bindingAt i = some b) :
    Names (.bound first) (.function isAsync isGenerator (.some declared) params inner)
      fun _ id => id = some i := by
  rintro s ⟨herror, hoccurrences⟩
  have hbinding : s.graph.bindingAt i = some b := by
    rw [ScopeGraph.bindingAt, hoccurrences]
    exact hb
  rw [disambiguate_interopHelper, StateT.run_bind, StateT.run_get]
  simp only [pure_bind, hi, Option.bind_some, hbinding, Option.map_some]
  refine .inl ⟨?_, s.graph.freeName b "_interopRequireDefault", some i, ?_, rfl⟩
  · split <;> exact ⟨herror, hoccurrences⟩
  · split <;> rfl

theorem relies_bound (table : RuleTable) (helpers : Bool) (first : ScopeGraph) :
    Relies (.bound first) table helpers (FunctionsBound first) fun _ _ _ => True where
  toPervasive := pervasive_bound first
  whole := And.left
  names {fn} hturns hfn := by
    obtain ⟨isAsync, isGenerator, declared, params, inner, rfl⟩ :=
      Builtin.exists_name_of_interopRule hturns.2
    obtain ⟨i, b, hi, hb⟩ := hfn.self.2 declared rfl
    refine (names_bound hi hb).imp fun _ ⟨name, id, hnew, hid⟩ => ?_
    subst hid
    exact ⟨name, _, hnew, trivial, Builtin.everywhere_bound_interopHelper hb name⟩

/-- What is asked of results is nothing. -/
theorem admits_true (bs : List Builtin) (named : Tree .function → String → Option Nat → Prop) :
    Admits bs named fun _ _ _ => True where
  inPlace _ _ := trivial
  block _ := trivial
  body _ := trivial
  stmt _ := trivial
  helper _ _ := trivial
  expr _ := trivial

end Pass

namespace RuleTable

open Pass Tree

variable {full table : RuleTable} {p : Program}

/-- **Passes succeed.** Whatever built-in rules are in the table: a pass over a program without holes does
not stop, if every function declaration in it has a binding. -/
theorem succeeds_pass (hfull : builtin = .ok full) (hsub : table.rules.Sublist full.rules)
    (hp : p.body.Everywhere (FunctionsBound p.scopeGraph)) : ∃ stats, (table.pass p).2 = .ok stats := by
  obtain ⟨bs, helpers, htable, -⟩ := offers_of_sublist hfull hsub
  rcases (relies_bound table helpers p.scopeGraph).pass_cases htable (admits_true bs _) ⟨rfl, rfl⟩ hp with
    ⟨body, s, -, -, hpass⟩ | ⟨body, e, hstops, -⟩
  · exact ⟨s.stats, by rw [hpass]⟩
  · exact hstops.elim

/-- A pass over a program that was read succeeds, if declarations stand in statement lists and in the heads
of loops. -/
theorem succeeds_pass_read (hfull : builtin = .ok full) (hsub : table.rules.Sublist full.rules)
    {source : String} (h : Program.read source = .ok p) (hlisted : p.body.Listed) :
    ∃ stats, (table.pass p).2 = .ok stats := by
  refine succeeds_pass hfull hsub fun q hq => ⟨(p.sourced_read h q hq).hole?, fun n hn => ?_⟩
  obtain ⟨c, t⟩ := q
  cases t with
  | functionStmt fn =>
    have hfn : ⟨.function, fn⟩ ∈ p.body.phrases :=
      mem_phrases_trans hq (mem_phrases_of_part List.mem_cons_self fn.self_mem_phrases)
    exact p.bound_read h hlisted hfn hn
  | _ => cases hn

/-- The source of a program with a helper in a block. -/
def nestedHelper : String :=
  "{ function f(a) { return a && a.__esModule ? a : { default: a }; } } f(b);"

theorem succeeds_pass_nestedHelper :
    ∃ full p, builtin = .ok full ∧ Program.read nestedHelper = .ok p ∧ p.body.Listed ∧
      ∃ stats, (full.pass p).2 = .ok stats := by
  have hread : ((Program.read nestedHelper).toOption.map fun p =>
      p.body.phrases.all fun q => !q.2.governsDeclaration) = Option.some true := by
    rw [Program.toOption_read, nestedHelper, String.toList_ofList]
    decide +kernel
  cases hp : Program.read nestedHelper with
  | error e =>
    rw [hp] at hread
    cases hread
  | ok p =>
    have hlisted : p.body.Listed := by
      rw [hp] at hread
      simpa [Except.toOption, Tree.Listed, Tree.Everywhere] using hread
    exact ⟨_, p, builtin_eq, rfl, hlisted, succeeds_pass_read builtin_eq (List.Sublist.refl _) hp hlisted⟩

end RuleTable

end Unminify
