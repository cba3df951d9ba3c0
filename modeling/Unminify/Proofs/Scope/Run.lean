import Unminify.Proofs.Scope.Outline
import Unminify.Scope.Analysis

/-!
# Runs of outlines

Scope analysis, on outlines: every scope declares its names when it is entered and is then gone
through, and every identifier is looked up where it stands. `scopeGraph_eq_run` says that this is
what the analysis of a program does, provided that its identifiers have positions of their own and
no block function clashes with a `let`, `const` or class.

The analysis itself finds out while it runs which block functions were hoisted. What has to be shown
is that it finds what the outline says: `Ready` is the invariant, on the positions that count as
hoisted so far.
-/

namespace Unminify

namespace ScopeGraph

/-- A new binding of a name in a scope. -/
def addBinding (g : ScopeGraph) (s : ScopeId) (name : String) (kind : BindingKind) : ScopeGraph :=
  { g with
    bindings := g.bindings.push { name, declaredName := name, kind, scope := s }
    scopes := g.scopes.modify s fun scope =>
      { scope with bindings := scope.bindings.push g.bindings.size } }

/-- An identifier that declares a binding. -/
def addDeclaration (g : ScopeGraph) (b : BindingId) (id : Nat) : ScopeGraph :=
  { g with
    bindings := g.bindings.modify b fun binding =>
      { binding with declarations := binding.declarations.push id }
    occurrences := g.occurrences.insert id b }

/-- An identifier that refers to a binding. -/
def addReference (g : ScopeGraph) (b : BindingId) (r : Reference) : ScopeGraph :=
  { g with
    bindings := g.bindings.modify b fun binding =>
      { binding with references := binding.references.push r }
    occurrences := g.occurrences.insert r.id b }

/-- The binding of a name in a scope itself. -/
def findHere (g : ScopeGraph) (s : ScopeId) (name : String) : Option BindingId :=
  g.scopes[s]?.bind (g.findIn · name)

/-- The graph in which a name is bound in a scope, and the binding. -/
def bound (g : ScopeGraph) (s : ScopeId) (name : String) (kind : BindingKind) :
    ScopeGraph × BindingId :=
  match g.findHere s name with
  | some b => (g, b)
  | none => (g.addBinding s name kind, g.bindings.size)

/-- Declares a name in a scope. -/
def declareIn (g : ScopeGraph) (s : ScopeId) (d : Name × BindingKind) : ScopeGraph :=
  match d.1 with
  | .ident name (some id) => (g.bound s name d.2).1.addDeclaration (g.bound s name d.2).2 id
  | .ident name none => (g.bound s name d.2).1
  | .nameHole _ => g

/-- Resolves a name in a scope. -/
def referIn (g : ScopeGraph) (s : ScopeId) (ident : Name) : ScopeGraph :=
  match ident with
  | .ident name id =>
    match g.lookup s name, id with
    | some b, some id => g.addReference b { id, scope := s }
    | some _, none => g
    | none, _ => { g with globals := g.globals.insert name }
  | .nameHole _ => g

/-- A new scope. -/
def openScope (g : ScopeGraph) (kind : ScopeKind) (parent : Option ScopeId) : ScopeGraph :=
  { g with scopes := g.scopes.push { kind, parent } }

/-- A new scope with its declarations. -/
def enter (g : ScopeGraph) (kind : ScopeKind) (parent : Option ScopeId)
    (ds : List (Name × BindingKind)) : ScopeGraph :=
  ds.foldl (·.declareIn g.scopes.size ·) (g.openScope kind parent)

/-- Every binding of a scope has the name and the kind of one of these declarations. -/
def Stems (g : ScopeGraph) (s : ScopeId) (ds : List (Name × BindingKind)) : Prop :=
  ∀ scope, g.scopes[s]? = some scope → ∀ b ∈ scope.bindings,
    ∃ x, g.bindings[b]? = some x ∧ ∃ d ∈ ds, d.1.nameText? = some x.name ∧ d.2 = x.kind

theorem Stems.mono {g : ScopeGraph} {s : ScopeId} {ds ds' : List (Name × BindingKind)}
    (h : g.Stems s ds) (hsub : ∀ d ∈ ds, d ∈ ds') : g.Stems s ds' := by
  intro scope hscope b hb
  obtain ⟨x, hx, d, hd, hname, hkind⟩ := h scope hscope b hb
  exact ⟨x, hx, d, hsub d hd, hname, hkind⟩

theorem Stems.addDeclaration {g : ScopeGraph} {s : ScopeId} {ds : List (Name × BindingKind)}
    (h : g.Stems s ds) (b : BindingId) (id : Nat) : (g.addDeclaration b id).Stems s ds := by
  intro scope hscope b' hb'
  obtain ⟨x, hx, d, hd, hname, hkind⟩ := h scope hscope b' hb'
  by_cases hbb : b = b'
  · refine ⟨{ x with declarations := x.declarations.push id }, ?_, d, hd, hname, hkind⟩
    simp only [ScopeGraph.addDeclaration, Array.getElem?_modify, if_pos hbb, hx, Option.map_some]
  · refine ⟨x, ?_, d, hd, hname, hkind⟩
    simp only [ScopeGraph.addDeclaration, Array.getElem?_modify, if_neg hbb, hx]

theorem Stems.addBinding {g : ScopeGraph} {s : ScopeId} {ds : List (Name × BindingKind)}
    (h : g.Stems s ds) {ident : Name} {name : String} {kind : BindingKind}
    (hname : ident.nameText? = some name) :
    (g.addBinding s name kind).Stems s (ds ++ [(ident, kind)]) := by
  intro scope hscope b hb
  simp only [ScopeGraph.addBinding, Array.getElem?_modify, if_true] at hscope
  obtain ⟨scope, hold, rfl⟩ := Option.map_eq_some_iff.mp hscope
  rcases Array.mem_push.mp hb with hb | rfl
  · obtain ⟨x, hx, d, hd, hxd⟩ := h scope hold b hb
    refine ⟨x, ?_, d, List.mem_append_left _ hd, hxd⟩
    have hlt := (Array.getElem?_eq_some_iff.mp hx).1
    simp only [ScopeGraph.addBinding, Array.getElem?_push, if_neg (Nat.ne_of_lt hlt), hx]
  · refine ⟨{ name, declaredName := name, kind, scope := s }, ?_, (ident, kind), ?_, hname, rfl⟩
    · simp only [ScopeGraph.addBinding, Array.getElem?_push, if_true]
    · exact List.mem_append_right _ List.mem_cons_self

theorem Stems.declareIn {g : ScopeGraph} {s : ScopeId} {ds : List (Name × BindingKind)}
    (h : g.Stems s ds) (d : Name × BindingKind) : (g.declareIn s d).Stems s (ds ++ [d]) := by
  have hmono := h.mono fun e he => List.mem_append_left [d] he
  obtain ⟨ident, kind⟩ := d
  cases ident with
  | nameHole _ => exact hmono
  | ident name id =>
    have hbound : (g.bound s name kind).1.Stems s (ds ++ [(.ident name id, kind)]) := by
      rw [bound]
      split
      · exact hmono
      · exact h.addBinding rfl
    cases id with
    | none => exact hbound
    | some id => exact hbound.addDeclaration _ _

theorem Stems.foldl {g : ScopeGraph} {s : ScopeId} {ds : List (Name × BindingKind)}
    (h : g.Stems s ds) (es : List (Name × BindingKind)) :
    (es.foldl (·.declareIn s ·) g).Stems s (ds ++ es) := by
  induction es generalizing g ds with
  | nil => rwa [List.append_nil]
  | cons e es ih =>
    rw [List.foldl_cons, ← List.singleton_append, ← List.append_assoc]
    exact ih (h.declareIn e)

theorem stems_openScope (g : ScopeGraph) (kind : ScopeKind) (parent : Option ScopeId) :
    (g.openScope kind parent).Stems g.scopes.size [] := by
  intro scope hscope b hb
  simp only [openScope, Array.getElem?_push, if_true, Option.some.injEq] at hscope
  subst hscope
  cases Array.not_mem_empty b hb

end ScopeGraph

/-- What an outline does to a graph, from inside a scope. -/
def Outline.run (s : ScopeId) : Outline → ScopeGraph → ScopeGraph
  | nil, g => g
  | reference name rest, g => rest.run s (g.referIn s name)
  | scope kind declared hoisted inner rest, g =>
    rest.run s (inner.run g.scopes.size (g.enter kind (some s) (allDeclared declared hoisted)))

theorem Outline.run_append (s : ScopeId) (o o' : Outline) (g : ScopeGraph) :
    (o.append o').run s g = o'.run s (o.run s g) := by
  induction o generalizing g with
  | nil => rfl
  | reference name rest ih => exact ih _
  | scope kind declared hoisted inner rest _ ih => exact ih _

/-! ## Block functions -/

/-- Whether phrases of a category have no statements in them but those of functions. -/
def Category.quiet : Category → Bool
  | switchCase | handler | stmt | block | body => false
  | list c => c.quiet
  | option c => c.quiet
  | _ => true

namespace Tree

theorem blockFunctions_of_quiet {c : Category} (hc : c.quiet = true) (nested : Bool) (t : Tree c) :
    t.blockFunctions nested = [] := by
  induction t with
  | cons head tail ih ih' =>
    show head.blockFunctions nested ++ tail.blockFunctions nested = []
    rw [ih hc, ih' hc]
    rfl
  | some value ih => exact ih hc
  | _ => first | rfl | cases hc

/-- Whether the block functions of a phrase are those of its parts. -/
def spreads : {c : Category} → Tree c → Bool
  | _, .function _ _ _ _ _ | _, .blockBody _ | _, .staticBlock _ | _, .functionStmt _ => false
  | _, _ => true

theorem quiet_visited {c : Category} {t : Tree c} (hc : c.quiet = true) (hsp : t.spreads = true) :
    ∀ p ∈ t.visited, p.1.quiet = true := by
  refine Each.of_mem (motive := fun c _ => c.quiet = true) ?_
  cases t
  case access computed _ _ _ => cases computed <;> exact ⟨rfl, by trivial⟩
  case cons => exact ⟨hc, hc, trivial⟩
  case some => exact ⟨hc, trivial⟩
  all_goals first
    | exact absurd hsp Bool.false_ne_true
    | exact absurd hc Bool.false_ne_true
    | exact trivial
    | exact ⟨rfl, trivial⟩
    | exact ⟨rfl, rfl, trivial⟩
    | exact ⟨rfl, rfl, rfl, trivial⟩

theorem spreads_of_plain {c : Category} {t : Tree c} (h : t.plain = true) : t.spreads = true := by
  cases t <;> first | rfl | exact absurd h Bool.false_ne_true

/-- In nested code, the block functions of a phrase are those of its parts. -/
theorem blockFunctions_of_spreads {c : Category} {t : Tree c} (hsp : t.spreads = true) :
    t.blockFunctions true = t.visited.flatMap fun p => p.2.blockFunctions true := by
  cases hc : c.quiet with
  | true =>
    rw [blockFunctions_of_quiet hc, eq_comm, List.flatMap_eq_nil_iff]
    exact fun p hp => blockFunctions_of_quiet (quiet_visited hc hsp p hp) true p.2
  | false =>
    have hexpr : ∀ e : Expr, e.blockFunctions true = [] := blockFunctions_of_quiet rfl true
    have hoption : ∀ e : Tree (.option .expr), e.blockFunctions true = [] :=
      blockFunctions_of_quiet rfl true
    have hdecl : ∀ d : VarDecl, d.blockFunctions true = [] := blockFunctions_of_quiet rfl true
    cases t with
    | exprStmt e =>
      show [] = e.blockFunctions true ++ []
      rw [hexpr, List.append_nil]
    | varStmt decl =>
      show [] = decl.blockFunctions true ++ []
      rw [hdecl, List.append_nil]
    | returnStmt value =>
      show [] = value.blockFunctions true ++ []
      rw [hoption, List.append_nil]
    | throwStmt value =>
      show [] = value.blockFunctions true ++ []
      rw [hexpr, List.append_nil]
    | ifStmt test consequent alternate =>
      show _ ++ _ = test.blockFunctions true ++ (_ ++ (_ ++ []))
      rw [hexpr, List.nil_append, List.append_nil]
    | whileStmt test inner =>
      show _ = test.blockFunctions true ++ (inner.blockFunctions true ++ [])
      rw [hexpr, List.nil_append, List.append_nil]
      rfl
    | doWhile test inner =>
      show _ = test.blockFunctions true ++ (inner.blockFunctions true ++ [])
      rw [hexpr, List.nil_append, List.append_nil]
      rfl
    | switchCase test inner =>
      show _ = test.blockFunctions true ++ (inner.blockFunctions true ++ [])
      rw [hoption, List.nil_append, List.append_nil]
      rfl
    | cons head tail =>
      show _ ++ _ = _ ++ (_ ++ [])
      rw [List.append_nil]
    | handler param inner =>
      show _ = param.blockFunctions true ++ (inner.blockFunctions true ++ [])
      rw [blockFunctions_of_quiet rfl true param, List.nil_append, List.append_nil]
      rfl
    | forStmt init test step inner =>
      show _ = init.blockFunctions true ++ (test.blockFunctions true ++
        (step.blockFunctions true ++ (inner.blockFunctions true ++ [])))
      rw [blockFunctions_of_quiet rfl true init, hoption, hoption, List.append_nil]
      rfl
    | forIn left right inner =>
      show _ = left.blockFunctions true ++ (right.blockFunctions true ++
        (inner.blockFunctions true ++ []))
      rw [blockFunctions_of_quiet rfl true left, hexpr, List.append_nil]
      rfl
    | forOf isAwait left right inner =>
      show _ = left.blockFunctions true ++ (right.blockFunctions true ++
        (inner.blockFunctions true ++ []))
      rw [blockFunctions_of_quiet rfl true left, hexpr, List.append_nil]
      rfl
    | switchStmt discriminant cases =>
      show _ = discriminant.blockFunctions true ++ (cases.blockFunctions true ++ [])
      rw [hexpr, List.nil_append, List.append_nil]
      rfl
    | tryStmt inner caught finalizer =>
      show _ ++ _ ++ _ = _ ++ (_ ++ (_ ++ []))
      rw [List.append_nil, List.append_assoc]
    | classStmt definition =>
      show [] = definition.blockFunctions true ++ []
      rw [blockFunctions_of_quiet rfl, List.append_nil]
    | _ =>
      first
      | exact absurd hsp Bool.false_ne_true
      | exact absurd hc Bool.noConfusion
      | rfl
      | exact (List.append_nil _).symm

/-- Block functions of a phrase that may stand at the top of a body are among those that it has in
nested code. -/
theorem blockFunctions_subset {c : Category} (t : Tree c) :
    ∀ n ∈ t.blockFunctions false, n ∈ t.blockFunctions true := by
  induction t with
  | functionStmt fn _ => exact fun n hn => (nomatch hn)
  | sequence inner ih => exact ih
  | stmts ss ih => exact ih
  | body stmt ih => exact ih
  | some value ih => exact ih
  | cons head tail ih ih' =>
    intro n hn
    rcases List.mem_append.mp hn with hn | hn
    · exact List.mem_append_left _ (ih n hn)
    · exact List.mem_append_right _ (ih' n hn)
  | _ => exact fun n hn => hn

/-- The block functions of a part are block functions of the whole. -/
theorem blockFunctions_visited {c : Category} {t : Tree c} (hsp : t.spreads = true) {p : Phrase}
    (hp : p ∈ t.visited) : ∀ n ∈ p.2.blockFunctions false, n ∈ t.blockFunctions false := by
  intro n hn
  cases hc : p.1.quiet with
  | true =>
    rw [blockFunctions_of_quiet hc] at hn
    cases hn
  | false =>
    have hmem : n ∈ t.blockFunctions true := by
      rw [blockFunctions_of_spreads hsp]
      exact List.mem_flatMap.mpr ⟨p, hp, blockFunctions_subset p.2 n hn⟩
    cases t with
    | sequence inner =>
      obtain rfl := List.mem_singleton.mp hp
      exact hn
    | stmts ss =>
      obtain rfl := List.mem_singleton.mp hp
      exact hn
    | body stmt =>
      obtain rfl := List.mem_singleton.mp hp
      exact hn
    | some value =>
      obtain rfl := List.mem_singleton.mp hp
      exact hn
    | cons head tail =>
      rcases List.mem_cons.mp hp with rfl | hp
      · exact List.mem_append_left _ hn
      · obtain rfl := List.mem_singleton.mp hp
        exact List.mem_append_right _ hn
    | _ => first | exact hmem | exact absurd hsp Bool.false_ne_true

/-- A function among the names of a statement list is one of its block functions. -/
theorem mem_blockFunctions {c : Category} (t : Tree c) :
    ∀ n, (n, .function) ∈ t.lexicalNames → n ∈ t.blockFunctions true := by
  induction t with
  | varDecl kind declarators _ =>
    intro n hn
    cases kind with
    | var => cases hn
    | lexical =>
      obtain ⟨m, -, hm⟩ := List.mem_map.mp hn
      cases hm
    | constant =>
      obtain ⟨m, -, hm⟩ := List.mem_map.mp hn
      cases hm
  | declHead decl ih =>
    intro n hn
    have h := ih n hn
    rw [blockFunctions_of_quiet rfl] at h
    cases h
  | varStmt decl ih =>
    intro n hn
    have h := ih n hn
    rw [blockFunctions_of_quiet rfl] at h
    cases h
  | functionStmt fn _ =>
    intro n hn
    obtain ⟨m, hm, hmn⟩ := List.mem_map.mp hn
    cases hmn
    exact hm
  | classStmt definition _ =>
    intro n hn
    obtain ⟨m, -, hm⟩ := List.mem_map.mp hn
    cases hm
  | switchCase test inner _ ih => exact ih
  | sequence inner ih => exact ih
  | stmts ss ih => exact ih
  | some value ih => exact ih
  | cons head tail ih ih' =>
    intro n hn
    rcases List.mem_append.mp hn with hn | hn
    · exact List.mem_append_left _ (ih n hn)
    · exact List.mem_append_right _ (ih' n hn)
  | _ => exact fun n hn => (nomatch hn)

/-- The names of block functions stand in the tree. -/
theorem blockFunctions_positions {c : Category} (t : Tree c) :
    ∀ n ∈ t.blockFunctions true, n.nameId? ∈ t.positions := by
  intro n hn
  have hcount := (counted n.nameId? t).nested false
  have hpos : 0 < tally n.nameId? (t.blockFunctions true) :=
    List.count_pos_iff.mpr (List.mem_map_of_mem hn)
  have hname : tally n.nameId? (blockNames false true t) = tally n.nameId? (t.blockFunctions true) :=
    rfl
  have : 0 < occurs n.nameId? t := by
    simp only [lifted] at hcount
    omega
  exact List.count_pos_iff.mp this

end Tree

namespace Scope

/-! ## Steps of the analysis -/

/-- A state with more declarations in the current scope. -/
def State.declaring (s : State) (ds : List (Name × BindingKind)) : State :=
  { s with graph := ds.foldl (·.declareIn s.current ·) s.graph }

theorem State.declaring_append (s : State) (ds es : List (Name × BindingKind)) :
    s.declaring (ds ++ es) = (s.declaring ds).declaring es := by
  simp only [declaring, List.foldl_append]

/-- The state in which an analysis ends. -/
def after (a : Analysis Unit) (s : State) : State := (a.run s).2

namespace Analysis

theorem after_seq (a b : Analysis Unit) (s : State) :
    after (do a; b) s = after b (after a s) := rfl

theorem after_forM {α : Type} (f : α → Analysis Unit) (xs : List α) (s : State) :
    after (xs.forM f) s = xs.foldl (fun s x => after (f x) s) s := by
  induction xs generalizing s with
  | nil => rfl
  | cons x xs ih => exact ih _

theorem after_within (kind : ScopeKind) (a : Analysis Unit) (s : State) :
    after (within kind a) s =
      { after a { s with graph := s.graph.openScope kind (some s.current)
                         current := s.graph.scopes.size } with current := s.current } := rfl

theorem after_withStrictness (strict : Bool) (a : Analysis Unit) (s : State) :
    after (withStrictness strict a) s = { after a { s with strict } with strict := s.strict } := rfl

theorem after_declare (kind : BindingKind) (ident : Name) (s : State) :
    after (declare kind ident) s = s.declaring [(ident, kind)] := by
  cases ident with
  | nameHole _ => rfl
  | ident name id =>
    have hfound : (inCurrent? name).run s = (s.graph.findHere s.current name, s) := rfl
    -- the name is looked for first; what follows depends on the outcome and on the position
    cases hb : s.graph.findHere s.current name <;> cases id <;>
      simp only [after, declare, StateT.run_bind, hfound, hb, pure_bind, State.declaring,
        List.foldl_cons, List.foldl_nil, ScopeGraph.declareIn, ScopeGraph.bound] <;>
      rfl

theorem after_reference (ident : Name) (s : State) :
    after (reference ident) s = { s with graph := s.graph.referIn s.current ident } := by
  cases ident with
  | nameHole _ => rfl
  | ident name id =>
    cases hb : s.graph.lookup s.current name <;> cases id <;>
      simp only [after, reference, StateT.run_bind, StateT.run_get, pure_bind, hb,
        ScopeGraph.referIn] <;>
      rfl

theorem after_declareAll (kind : BindingKind) (ns : List Name) (s : State) :
    after (declareAll kind ns) s = s.declaring (ns.map (·, kind)) := by
  rw [declareAll, after_forM]
  induction ns generalizing s with
  | nil => rfl
  | cons n ns ih =>
    rw [List.foldl_cons, after_declare, ih]
    rfl

/-- Whether a declaration is left out, the function around having made it. -/
def skipped (hoisted : Std.TreeSet Nat) (d : Name × BindingKind) : Bool :=
  d.2 = .function && d.1.nameId?.any hoisted.contains

theorem after_declareLexical {c : Category} (t : Tree c) (s : State) :
    after (declareLexical t) s = s.declaring (t.lexicalNames.filter (!skipped s.hoisted ·)) := by
  rw [declareLexical, after_forM]
  generalize t.lexicalNames = ds
  induction ds generalizing s with
  | nil => rfl
  | cons d ds ih =>
    obtain ⟨ident, kind⟩ := d
    rw [List.foldl_cons]
    have hstep : after (do
        let hoisted := (← get).hoisted
        if kind = .function && ident.nameId?.any hoisted.contains then pure ()
        else declare kind ident) s =
          if skipped s.hoisted (ident, kind) then s else s.declaring [(ident, kind)] := by
      show after (if skipped s.hoisted (ident, kind) then pure () else declare kind ident) s = _
      split
      · rfl
      · exact after_declare kind ident s
    rw [hstep, ih, List.filter_cons]
    cases skipped s.hoisted (ident, kind) <;> rfl

/-- A block function stays in its block if a binding of its name is in the way. -/
def isBlocked (s : State) (name : String) : Bool :=
  s.graph.scopes[s.current]?.any fun scope => scope.bindings.any fun b =>
    s.graph.bindings[b]?.any fun binding => binding.name == name && binding.kind.blocks

theorem after_hoistBlockFunction {name : String} {id : Option Nat} {s : State}
    (h : isBlocked s name = false) :
    after (hoistBlockFunction (.ident name id)) s =
      { s.declaring [(.ident name id, .function)] with
        hoisted := id.toList.foldl (·.insert ·) s.hoisted } := by
  show after (if isBlocked s name then pure () else do
    declare .function (.ident name id)
    modify fun s => { s with hoisted := id.toList.foldl (·.insert ·) s.hoisted }) s = _
  rw [h]
  show { after (declare .function (.ident name id)) s with
    hoisted := id.toList.foldl (·.insert ·) (after (declare .function (.ident name id)) s).hoisted } = _
  rw [after_declare]
  rfl

theorem isBlocked_of_stems {s : State} {ds : List (Name × BindingKind)}
    (h : s.graph.Stems s.current ds) {name : String}
    (hclash : ∀ d ∈ ds, d.2.blocks = true → some name ≠ d.1.nameText?) :
    isBlocked s name = false := by
  refine Bool.eq_false_iff.mpr fun hany => ?_
  obtain ⟨scope, hscope, hany⟩ := (Option.any_eq_true _ _).mp hany
  obtain ⟨b, hb, hany⟩ := Array.any_eq_true'.mp hany
  obtain ⟨x, hx, hany⟩ := (Option.any_eq_true _ _).mp hany
  obtain ⟨hname, hblocks⟩ := Bool.and_eq_true_iff.mp hany
  obtain ⟨x', hx', d, hd, hdname, hdkind⟩ := h scope hscope b hb
  obtain rfl : x = x' := Option.some.inj (hx.symm.trans hx')
  refine hclash d hd (hdkind ▸ hblocks) ?_
  rw [hdname, beq_iff_eq.mp hname]

theorem contains_insertId (hoisted : Std.TreeSet Nat) (id : Option Nat) (i : Nat) :
    (id.toList.foldl (·.insert ·) hoisted).contains i = (hoisted.contains i || id == some i) := by
  cases id with
  | none => exact (Bool.or_false _).symm
  | some j =>
    show (hoisted.insert j).contains i = _
    rw [Std.TreeSet.contains_insert, Bool.or_comm]
    congr 1
    refine Bool.eq_iff_iff.mpr ?_
    rw [beq_iff_eq, Std.LawfulEqOrd.compare_eq_iff_eq, beq_iff_eq, Option.some.injEq]

theorem after_hoistAll {fs : List Name} {s : State} {ds : List (Name × BindingKind)}
    (h : s.graph.Stems s.current ds)
    (hclash : ∀ f ∈ fs, ∀ d ∈ ds, d.2.blocks = true → f.nameText? ≠ d.1.nameText?) :
    ∃ hoisted, after (fs.forM hoistBlockFunction) s =
        { s.declaring (fs.map (·, .function)) with hoisted } ∧
      ∀ i, hoisted.contains i = (s.hoisted.contains i || (fs.map Tree.nameId?).contains (some i)) := by
  rw [after_forM]
  induction fs generalizing s ds with
  | nil => exact ⟨s.hoisted, rfl, fun i => (Bool.or_false _).symm⟩
  | cons f fs ih =>
    have hstems := h.declareIn (f, .function)
    have hrest : ∀ f' ∈ fs, ∀ d ∈ ds ++ [(f, .function)],
        d.2.blocks = true → f'.nameText? ≠ d.1.nameText? := by
      intro f' hf' d hd hblocks
      rcases List.mem_append.mp hd with hd | hd
      · exact hclash f' (List.mem_cons_of_mem _ hf') d hd hblocks
      · -- a function is in no one's way
        obtain rfl := List.mem_singleton.mp hd
        cases hblocks
    cases f with
    | nameHole k => exact ih hstems hrest
    | ident name id =>
      have hfree : isBlocked s name = false :=
        isBlocked_of_stems h fun d hd => hclash _ List.mem_cons_self d hd
      rw [List.foldl_cons, after_hoistBlockFunction hfree]
      obtain ⟨hoisted, heq, hmem⟩ := ih (s := { s.declaring [(.ident name id, .function)] with
        hoisted := id.toList.foldl (·.insert ·) s.hoisted }) hstems hrest
      refine ⟨hoisted, heq, fun i => ?_⟩
      rw [hmem, contains_insertId, List.map_cons, List.contains_cons, Bool.or_assoc]
      congr 2
      exact Bool.eq_iff_iff.mpr (beq_iff_eq.trans (eq_comm.trans beq_iff_eq.symm))

/-- The names of a statement list, if none of its functions counts as hoisted. -/
theorem filter_skipped_of_free {c : Category} {t : Tree c} {hoisted : Std.TreeSet Nat}
    (hfree : ∀ i, some i ∈ t.positions → hoisted.contains i = false) :
    t.lexicalNames.filter (!skipped hoisted ·) = t.lexicalNames := by
  refine List.filter_eq_self.mpr fun d hd => ?_
  obtain ⟨n, kind⟩ := d
  by_cases hkind : kind = .function
  · subst hkind
    have hpos := t.blockFunctions_positions n (t.mem_blockFunctions n hd)
    cases hid : n.nameId? with
    | none => simp only [skipped, hid, Option.any_none, Bool.and_false, Bool.not_false]
    | some i =>
      rw [hid] at hpos
      simp only [skipped, hid, Option.any_some, hfree i hpos, Bool.and_false, Bool.not_false]
  · simp only [skipped, hkind, decide_false, Bool.false_and, Bool.not_false]

/-- What a body declares, beside the parameters of its function. -/
def bodyNames (body : Block) : List (Name × BindingKind) :=
  body.hoistedVars.map (·, .var) ++ body.lexicalNames

theorem after_declareBody {body : Block} {s : State} {ds : List (Name × BindingKind)}
    (hstems : s.graph.Stems s.current ds)
    (hfree : ∀ i, some i ∈ body.positions → s.hoisted.contains i = false)
    (hclash : ∀ f ∈ body.hoistedNames s.strict, ∀ d ∈ ds ++ bodyNames body,
      d.2.blocks = true → f.nameText? ≠ d.1.nameText?) :
    ∃ hoisted, after (declareBody body) s =
        { s.declaring (Outline.allDeclared (bodyNames body) (body.hoistedNames s.strict)) with
          hoisted } ∧
      ∀ i, hoisted.contains i =
        (s.hoisted.contains i || ((body.hoistedNames s.strict).map Tree.nameId?).contains (some i)) := by
  have hdecl : after (do declareAll .var body.hoistedVars; declareLexical body) s =
      s.declaring (bodyNames body) := by
    rw [after_seq, after_declareAll, after_declareLexical, bodyNames, State.declaring_append]
    exact congrArg _ (filter_skipped_of_free hfree)
  have hsplit : after (declareBody body) s =
      after (if !(s.declaring (bodyNames body)).strict then
        (body.blockFunctions false).forM hoistBlockFunction else pure ())
          (s.declaring (bodyNames body)) := by
    rw [← hdecl]
    rfl
  have hstems' : (s.declaring (bodyNames body)).graph.Stems s.current (ds ++ bodyNames body) :=
    hstems.foldl (bodyNames body)
  rw [hsplit, Outline.allDeclared, State.declaring_append]
  have hstrict : (s.declaring (bodyNames body)).strict = s.strict := rfl
  rw [hstrict]
  cases hst : s.strict with
  | true =>
    exact ⟨s.hoisted, rfl, fun i => (Bool.or_false _).symm⟩
  | false =>
    rw [hst] at hclash
    exact after_hoistAll hstems' hclash

/-! ## Walks of the analysis -/

/-- An analysis does what an outline says, and hoists nothing but what stands at these positions. -/
def Yields (a : Analysis Unit) (s : State) (o : Outline) (is : List (Option Nat)) : Prop :=
  ∃ hoisted, after a s = { s with graph := o.run s.current s.graph, hoisted } ∧
    ∀ i, some i ∉ is → hoisted.contains i = s.hoisted.contains i

theorem Yields.mono {a : Analysis Unit} {s : State} {o : Outline} {is js : List (Option Nat)}
    (h : Yields a s o is) (hsub : ∀ i ∈ is, i ∈ js) : Yields a s o js := by
  obtain ⟨hoisted, heq, hframe⟩ := h
  exact ⟨hoisted, heq, fun i hi => hframe i fun hi' => hi (hsub _ hi')⟩

theorem Yields.seq {a b : Analysis Unit} {s : State} {o o' : Outline} {is js : List (Option Nat)}
    (ha : Yields a s o is)
    (hb : ∀ hoisted : Std.TreeSet Nat,
      (∀ i, some i ∉ is → hoisted.contains i = s.hoisted.contains i) →
        Yields b { s with graph := o.run s.current s.graph, hoisted } o' js) :
    Yields (do a; b) s (o.append o') (is ++ js) := by
  obtain ⟨hoisted, heq, hframe⟩ := ha
  obtain ⟨hoisted', heq', hframe'⟩ := hb hoisted hframe
  refine ⟨hoisted', ?_, fun i hi => ?_⟩
  · rw [after_seq, heq, heq', Outline.run_append]
  · rw [List.mem_append, not_or] at hi
    exact (hframe' i hi.2).trans (hframe i hi.1)

/-- A scope: its declarations are made, and then its inside is gone through. -/
theorem Yields.within {a b : Analysis Unit} {s : State} {kind : ScopeKind}
    {declared : List (Name × BindingKind)} {hoisted : List Name} {o : Outline}
    {is : List (Option Nat)}
    (ha : ∃ set : Std.TreeSet Nat, (∀ i, some i ∉ is → set.contains i = s.hoisted.contains i) ∧
      Yields b { s with graph := s.graph.enter kind (some s.current)
                          (Outline.allDeclared declared hoisted)
                        current := s.graph.scopes.size
                        hoisted := set } o is ∧
      after a { s with graph := s.graph.openScope kind (some s.current)
                       current := s.graph.scopes.size } =
        { s with graph := s.graph.enter kind (some s.current) (Outline.allDeclared declared hoisted)
                 current := s.graph.scopes.size
                 hoisted := set }) :
    Yields (within kind do a; b) s (.scope kind declared hoisted o .nil) is := by
  obtain ⟨set, hset, ⟨set', heq, hframe⟩, hdecl⟩ := ha
  refine ⟨set', ?_, fun i hi => (hframe i hi).trans (hset i hi)⟩
  rw [after_within, after_seq, hdecl, heq]
  rfl

/-- What is known of the hoisted positions when a phrase is walked: in sloppy code its block functions
count as hoisted, and no other identifier of it does. -/
structure Ready {c : Category} (t : Tree c) (strict : Bool) (set : Std.TreeSet Nat) : Prop where
  hoisted : strict = false → ∀ n ∈ t.blockFunctions false, ∀ i, n.nameId? = some i →
    set.contains i = true
  only : ∀ i, some i ∈ t.positions → set.contains i = true →
    strict = false ∧ some i ∈ (t.blockFunctions true).map Tree.nameId?

theorem Ready.congr {c : Category} {t : Tree c} {strict : Bool} {set set' : Std.TreeSet Nat}
    (h : Ready t strict set) (hset : ∀ i, some i ∈ t.positions → set'.contains i = set.contains i) :
    Ready t strict set' where
  hoisted hst n hn i hi := by
    have hpos := t.blockFunctions_positions n (t.blockFunctions_subset n hn)
    rw [hi] at hpos
    rw [hset i hpos]
    exact h.hoisted hst n hn i hi
  only i hi hc := h.only i hi (hset i hi ▸ hc)

/-- A phrase with no hoisted identifiers is ready in strict code, and anywhere if it has no block
functions. -/
theorem Ready.of_free {c : Category} {t : Tree c} {strict : Bool} {set : Std.TreeSet Nat}
    (hfree : ∀ i, some i ∈ t.positions → set.contains i = false)
    (hnone : strict = true ∨ t.blockFunctions false = []) : Ready t strict set where
  hoisted hst n hn := by
    rcases hnone with hnone | hnone
    · exact absurd (hnone.symm.trans hst) Bool.noConfusion
    · rw [hnone] at hn
      cases hn
  only i hi hc := absurd ((hfree i hi).symm.trans hc) Bool.noConfusion

/-- The analysis of a phrase follows its outline. -/
def Resolves {c : Category} (t : Tree c) : Prop :=
  ∀ s : State, none ∉ t.positions → t.positions.Nodup → (t.outline s.strict).NoClash →
    Ready t s.strict s.hoisted → Yields (resolve t) s (t.outline s.strict) t.positions

/-- Phrases walked one after the other. -/
theorem yields_all (ps : List Phrase) (hps : ∀ p ∈ ps, Resolves p.2) {s : State}
    (hnone : none ∉ ps.flatMap (·.2.positions)) (hnodup : (ps.flatMap (·.2.positions)).Nodup)
    (hclash : ∀ p ∈ ps, (p.2.outline s.strict).NoClash)
    (hready : ∀ p ∈ ps, Ready p.2 s.strict s.hoisted) :
    Yields (ps.forM fun p => resolve p.2) s (.join (ps.map fun p => p.2.outline s.strict))
      (ps.flatMap (·.2.positions)) := by
  induction ps generalizing s with
  | nil => exact ⟨s.hoisted, rfl, fun _ _ => rfl⟩
  | cons p ps ih =>
    rw [List.flatMap_cons] at hnone hnodup ⊢
    rw [List.mem_append, not_or] at hnone
    obtain ⟨hp, hrest, hdisjoint⟩ := List.nodup_append.mp hnodup
    have hfirst := hps p List.mem_cons_self s hnone.1 hp (hclash p List.mem_cons_self)
      (hready p List.mem_cons_self)
    refine Yields.seq hfirst fun set hset => ?_
    refine ih (fun q hq => hps q (List.mem_cons_of_mem _ hq)) hnone.2 hrest
      (fun q hq => hclash q (List.mem_cons_of_mem _ hq)) fun q hq => ?_
    refine (hready q (List.mem_cons_of_mem _ hq)).congr fun i hi => hset i fun hi' => ?_
    exact hdisjoint _ hi' _ (List.mem_flatMap.mpr ⟨q, hq, hi⟩) rfl

/-- Positions in different phrases of a list are different. -/
theorem eq_of_mem_positions {ps : List Phrase} (hnodup : (ps.flatMap (·.2.positions)).Nodup)
    {p q : Phrase} (hp : p ∈ ps) (hq : q ∈ ps) {i : Option Nat} (hip : i ∈ p.2.positions)
    (hiq : i ∈ q.2.positions) : p = q := by
  induction ps with
  | nil => cases hp
  | cons r ps ih =>
    rw [List.flatMap_cons] at hnodup
    obtain ⟨-, hrest, hdisjoint⟩ := List.nodup_append.mp hnodup
    rcases List.mem_cons.mp hp with rfl | hp' <;> rcases List.mem_cons.mp hq with rfl | hq'
    · rfl
    · exact absurd rfl (hdisjoint i hip i (List.mem_flatMap.mpr ⟨q, hq', hiq⟩))
    · exact absurd rfl (hdisjoint i hiq i (List.mem_flatMap.mpr ⟨p, hp', hip⟩))
    · exact ih hrest hp' hq'

theorem visited_positions {c : Category} (t : Tree c) :
    (t.visited.flatMap (·.2.positions)).Sublist t.positions := by
  rw [Tree.positions_eq, Tree.parts_eq, List.flatMap_append]
  exact (List.sublist_append_left _ _).trans (List.sublist_append_right _ _)

theorem Ready.visited {c : Category} {t : Tree c} (hsp : t.spreads = true)
    (hnodup : t.positions.Nodup) {strict : Bool} {set : Std.TreeSet Nat} (h : Ready t strict set)
    {p : Phrase} (hp : p ∈ t.visited) : Ready p.2 strict set where
  hoisted hst n hn := h.hoisted hst n (Tree.blockFunctions_visited hsp hp n hn)
  only i hi hc := by
    have hsub := visited_positions t
    obtain ⟨hst, hmem⟩ := h.only i (hsub.subset (List.mem_flatMap.mpr ⟨p, hp, hi⟩)) hc
    refine ⟨hst, ?_⟩
    rw [Tree.blockFunctions_of_spreads hsp] at hmem
    obtain ⟨n, hn, hni⟩ := List.mem_map.mp hmem
    obtain ⟨q, hq, hn⟩ := List.mem_flatMap.mp hn
    -- the block function with this position can only be in the part itself
    have hiq : some i ∈ q.2.positions := hni ▸ q.2.blockFunctions_positions n hn
    obtain rfl := eq_of_mem_positions (hnodup.sublist hsub) hp hq hi hiq
    exact List.mem_map.mpr ⟨n, hn, hni⟩

theorem resolve_of_plain {c : Category} {t : Tree c} (hplain : t.plain = true) :
    resolve t = t.visited.forM fun p => resolve p.2 := by
  cases t
  case access computed _ _ _ => cases computed <;> rfl
  case nameBinder name => cases name <;> rfl
  case shortBinder name _ => cases name <;> rfl
  all_goals first | rfl | exact absurd hplain Bool.false_ne_true

theorem resolves_of_plain {c : Category} {t : Tree c} (hplain : t.plain = true)
    (ih : ∀ p ∈ t.visited, Resolves p.2) : Resolves t := by
  intro s hnone hnodup hclash hready
  have hsub := visited_positions t
  rw [Tree.outline_of_plain hplain] at hclash ⊢
  rw [resolve_of_plain hplain]
  refine (yields_all _ ih (fun h => hnone (hsub.subset h)) (hnodup.sublist hsub) ?_ ?_).mono
    fun i hi => hsub.subset hi
  · exact fun p hp => Outline.noClash_join.mp hclash _ (List.mem_map_of_mem hp)
  · exact fun p hp => hready.visited (Tree.spreads_of_plain hplain) hnodup hp

/-! ## Scopes -/

/-- In nested code the functions of a statement list are left out exactly if the code is sloppy. -/
theorem filter_skipped_nested {c : Category} {t : Tree c} {strict : Bool} {set : Std.TreeSet Nat}
    (hnone : none ∉ t.positions)
    (hhoisted : strict = false → ∀ n ∈ t.blockFunctions true, ∀ i, n.nameId? = some i →
      set.contains i = true)
    (honly : ∀ i, some i ∈ t.positions → set.contains i = true → strict = false) :
    t.lexicalNames.filter (!skipped set ·) = t.nestedNames strict := by
  cases strict with
  | true =>
    refine filter_skipped_of_free fun i hi => Bool.eq_false_iff.mpr fun hc => ?_
    exact absurd (honly i hi hc) Bool.noConfusion
  | false =>
    refine List.filter_congr fun d hd => ?_
    obtain ⟨n, kind⟩ := d
    by_cases hkind : kind = .function
    · subst hkind
      have hmem := t.mem_blockFunctions n hd
      cases hid : n.nameId? with
      | none => exact absurd (hid ▸ t.blockFunctions_positions n hmem) hnone
      | some i =>
        have hc := hhoisted rfl n hmem i hid
        simp only [skipped, hid, Option.any_some, hc, decide_true, Bool.and_self, Bool.not_true,
          bne_self_eq_false]
    · have hne : (kind != .function) = true := bne_iff_ne.mpr hkind
      simp only [skipped, hkind, decide_false, Bool.false_and, Bool.not_false, hne]

/-- The scope of a nested statement list or of a loop head. -/
theorem Yields.nested {c : Category} {t : Tree c} {kind : ScopeKind} {s : State} {b : Analysis Unit}
    {o : Outline} {is : List (Option Nat)} (hnone : none ∉ t.positions)
    (hhoisted : s.strict = false → ∀ n ∈ t.blockFunctions true, ∀ i, n.nameId? = some i →
      s.hoisted.contains i = true)
    (honly : ∀ i, some i ∈ t.positions → s.hoisted.contains i = true → s.strict = false)
    (hb : ∀ (graph : ScopeGraph) (current : ScopeId), Yields b { s with graph, current } o is) :
    Yields (Analysis.within kind do declareLexical t; b) s (t.nestedScope kind s.strict o) is := by
  refine Yields.within ⟨s.hoisted, fun _ _ => rfl, hb _ _, ?_⟩
  rw [after_declareLexical, filter_skipped_nested hnone hhoisted honly, Outline.allDeclared,
    List.map_nil, List.append_nil]
  rfl

/-- A scope with names of one kind. -/
theorem Yields.named {kind : ScopeKind} {as : BindingKind} {own : List Name} {s : State}
    {b : Analysis Unit} {o : Outline} {is : List (Option Nat)}
    (hb : ∀ (graph : ScopeGraph) (current : ScopeId), Yields b { s with graph, current } o is) :
    Yields (Analysis.within kind do own.forM (declare as); b) s (Tree.namedScope kind as own o) is := by
  refine Yields.within ⟨s.hoisted, fun _ _ => rfl, hb _ _, ?_⟩
  have h := after_declareAll as own
    { s with graph := s.graph.openScope kind (some s.current), current := s.graph.scopes.size }
  rw [declareAll] at h
  rw [h, Outline.allDeclared, List.map_nil, List.append_nil]
  rfl

theorem mem_positions_of_hoisted {body : Block} {strict : Bool} {i : Nat}
    (h : ((body.hoistedNames strict).map Tree.nameId?).contains (some i) = true) :
    strict = false ∧ some i ∈ (body.blockFunctions false).map Tree.nameId? ∧
      some i ∈ body.positions := by
  cases strict with
  | true => cases h
  | false =>
    have hmem : some i ∈ (body.blockFunctions false).map Tree.nameId? := List.contains_iff_mem.mp h
    obtain ⟨n, hn, hni⟩ := List.mem_map.mp hmem
    exact ⟨rfl, hmem, hni ▸ body.blockFunctions_positions n (body.blockFunctions_subset n hn)⟩

/-- The scope of a function. What its body hoists counts as hoisted inside. -/
theorem Yields.function {own : List Name} {params : Tree (.list .binder)} {body : Block} {s : State}
    {inner : Analysis Unit} {o : Outline} {is : List (Option Nat)}
    (hfree : ∀ i, some i ∈ body.positions → s.hoisted.contains i = false)
    (his : ∀ i ∈ body.positions, i ∈ is)
    (hclash : ∀ f ∈ body.hoistedNames (s.strict || body.isStrict),
      ∀ d ∈ Tree.functionNames own params body, d.2.blocks = true → f.nameText? ≠ d.1.nameText?)
    (hb : ∀ (graph : ScopeGraph) (current : ScopeId) (set : Std.TreeSet Nat),
      (∀ i, set.contains i = (s.hoisted.contains i ||
        ((body.hoistedNames (s.strict || body.isStrict)).map Tree.nameId?).contains (some i))) →
      Yields inner { graph, current, strict := s.strict || body.isStrict, hoisted := set } o is) :
    Yields (Analysis.within .function do own.forM (declare .function); inFunction params body inner) s
      (Tree.functionScope own (s.strict || body.isStrict) params body o) is := by
  let opened : State := { s with graph := s.graph.openScope .function (some s.current)
                                 current := s.graph.scopes.size }
  let strict := s.strict || body.isStrict
  let before : List (Name × BindingKind) :=
    own.map (·, .function) ++ params.boundNames.map (·, .param)
  have hstems : (State.declaring { opened with strict } before).graph.Stems opened.current before :=
    (s.graph.stems_openScope .function (some s.current)).foldl before
  obtain ⟨set, hbody, hset⟩ := after_declareBody hstems hfree (by
    intro f hf d hd
    refine hclash f hf d ?_
    rw [Tree.functionNames, List.append_assoc]
    exact hd)
  obtain ⟨set', heq, hframe⟩ := hb (s.graph.enter .function (some s.current)
    (Outline.allDeclared (Tree.functionNames own params body) (body.hoistedNames strict)))
    s.graph.scopes.size set hset
  have hinside : after (do own.forM (declare .function); inFunction params body inner) opened =
      { after inner (after (declareBody body) (State.declaring { opened with strict } before)) with
        strict := s.strict } := by
    have hown : after (own.forM (declare .function)) opened = opened.declaring (own.map (·, .function)) :=
      after_declareAll .function own opened
    rw [after_seq, hown]
    show { after inner (after (declareBody body) (after (declareAll .param params.boundNames)
      { opened.declaring (own.map (·, .function)) with strict })) with strict := s.strict } = _
    rw [after_declareAll, State.declaring_append]
    rfl
  replace hset : ∀ i, set.contains i = (s.hoisted.contains i ||
    ((body.hoistedNames strict).map Tree.nameId?).contains (some i)) := hset
  refine ⟨set', ?_, fun i hi => ?_⟩
  · have hgraph : (State.declaring (State.declaring { opened with strict } before)
        (Outline.allDeclared (bodyNames body) (body.hoistedNames strict))).graph =
          s.graph.enter .function (some s.current)
            (Outline.allDeclared (Tree.functionNames own params body) (body.hoistedNames strict)) := by
      simp only [State.declaring, ScopeGraph.enter, Outline.allDeclared, Tree.functionNames, bodyNames,
        before, List.foldl_append]
      rfl
    have hstate : ({ State.declaring (State.declaring { opened with strict } before)
        (Outline.allDeclared (bodyNames body) (body.hoistedNames strict)) with hoisted := set } : State) =
          { graph := s.graph.enter .function (some s.current)
              (Outline.allDeclared (Tree.functionNames own params body) (body.hoistedNames strict))
            current := s.graph.scopes.size
            strict := strict
            hoisted := set } := by
      rw [← hgraph]
      rfl
    rw [after_within, hinside, hbody]
    show ({ after inner { State.declaring (State.declaring { opened with strict } before)
      (Outline.allDeclared (bodyNames body) (body.hoistedNames strict)) with hoisted := set } with
        strict := s.strict, current := s.current } : State) = _
    rw [hstate, heq]
    rfl
  · rw [hframe i hi, hset]
    cases hc : ((body.hoistedNames strict).map Tree.nameId?).contains (some i) with
    | true => exact absurd (his _ (mem_positions_of_hoisted hc).2.2) hi
    | false => exact Bool.or_false _

/-- The hoisted positions inside a function, as far as they are known outside of it. -/
def Inside (outer set : Std.TreeSet Nat) (strict : Bool) (body : Block) : Prop :=
  ∀ i, set.contains i = (outer.contains i ||
    ((body.hoistedNames strict).map Tree.nameId?).contains (some i))

/-- The body of a function is ready inside it. -/
theorem Ready.body {body : Block} {outer set : Std.TreeSet Nat} {strict : Bool}
    (hset : Inside outer set strict body)
    (hfree : ∀ i, some i ∈ body.positions → outer.contains i = false) : Ready body strict set where
  hoisted hst n hn i hi := by
    subst hst
    have hmem : ((body.hoistedNames false).map Tree.nameId?).contains (some i) = true :=
      List.contains_iff_mem.mpr (hi ▸ List.mem_map_of_mem hn)
    rw [hset i, hmem, Bool.or_true]
  only i hi hc := by
    rw [hset i, hfree i hi, Bool.false_or] at hc
    obtain ⟨hst, hmem, -⟩ := mem_positions_of_hoisted hc
    obtain ⟨n, hn, hni⟩ := List.mem_map.mp hmem
    exact ⟨hst, List.mem_map.mpr ⟨n, body.blockFunctions_subset n hn, hni⟩⟩

/-- What stands beside the body of a function is ready inside it. -/
theorem Ready.beside {c : Category} {t : Tree c} {body : Block} {outer set : Std.TreeSet Nat}
    {strict : Bool} (hc : c.quiet = true) (hset : Inside outer set strict body)
    (hfree : ∀ i, some i ∈ t.positions → outer.contains i = false)
    (hdisjoint : ∀ i ∈ t.positions, i ∉ body.positions) : Ready t strict set := by
  refine Ready.of_free (fun i hi => ?_) (.inr (Tree.blockFunctions_of_quiet hc false t))
  rw [hset i, hfree i hi, Bool.false_or]
  refine Bool.eq_false_iff.mpr fun hc => ?_
  exact hdisjoint _ hi (mem_positions_of_hoisted hc).2.2

/-- The scope of a function, with its parameters and its body, or the expression it returns. -/
theorem Yields.functionParts {own : List Name} {params : Tree (.list .binder)} {body : Block}
    {c : Category} {rest : Tree c} {s : State} (hparams : Resolves params) (hrest : Resolves rest)
    (hbody : ∀ i ∈ body.positions, i ∈ rest.positions)
    (hready : ∀ set, Inside s.hoisted set (s.strict || body.isStrict) body →
      Ready rest (s.strict || body.isStrict) set)
    (hnone : none ∉ params.positions ++ rest.positions)
    (hnodup : (params.positions ++ rest.positions).Nodup)
    (hfree : ∀ i, some i ∈ params.positions ++ rest.positions → s.hoisted.contains i = false)
    (hclash : (Tree.functionScope own (s.strict || body.isStrict) params body
      (.join [params.outline (s.strict || body.isStrict),
        rest.outline (s.strict || body.isStrict)])).NoClash) :
    Yields (Analysis.within .function do
        own.forM (declare .function)
        inFunction params body do resolve params; resolve rest) s
      (Tree.functionScope own (s.strict || body.isStrict) params body
        (.join [params.outline (s.strict || body.isStrict), rest.outline (s.strict || body.isStrict)]))
      (params.positions ++ rest.positions) := by
  obtain ⟨hscope, hinner, -⟩ := hclash
  obtain ⟨-, -, hdisjoint⟩ := List.nodup_append.mp hnodup
  have hflat : [(⟨_, params⟩ : Phrase), ⟨_, rest⟩].flatMap (·.2.positions) =
      params.positions ++ rest.positions := by
    simp only [List.flatMap_cons, List.flatMap_nil, List.append_nil]
  refine Yields.function (fun i hi => hfree i (List.mem_append_right _ (hbody _ hi)))
    (fun i hi => List.mem_append_right _ (hbody i hi)) hscope fun graph current set hset => ?_
  rw [← hflat] at hnone hnodup ⊢
  refine yields_all [⟨_, params⟩, ⟨_, rest⟩] ?_ hnone hnodup ?_ ?_
  · exact Tree.Each.of_mem (motive := fun _ t => Resolves t) ⟨hparams, hrest, trivial⟩
  · have hall := Outline.noClash_join.mp hinner
    exact Tree.Each.of_mem (motive := fun _ t => (t.outline _).NoClash)
      ⟨hall _ List.mem_cons_self, hall _ (List.mem_cons_of_mem _ List.mem_cons_self), trivial⟩
  · refine Tree.Each.of_mem (motive := fun _ t => Ready t _ set) ⟨?_, hready set hset, trivial⟩
    exact .beside rfl hset (fun i hi => hfree i (List.mem_append_left _ hi))
      fun i hi hi' => hdisjoint i hi i (hbody i hi') rfl

/-! ## Every phrase -/

/-- Whether phrases of a category are walked by themselves. Definitions of functions and bodies of
arrows are walked with the phrases around them, in whose scopes they declare names. -/
def walked : Category → Bool
  | .function | .arrowBody => false
  | .list c => walked c
  | .option c => walked c
  | _ => true

theorem walked_visited {c : Category} {t : Tree c} (hplain : t.plain = true) (hc : walked c = true) :
    ∀ p ∈ t.visited, walked p.1 = true := by
  refine Tree.Each.of_mem (motive := fun c _ => walked c = true) ?_
  cases t
  case access computed _ _ _ => cases computed <;> exact ⟨rfl, by trivial⟩
  case cons => exact ⟨hc, hc, trivial⟩
  case some => exact ⟨hc, trivial⟩
  all_goals first
    | exact absurd hplain Bool.false_ne_true
    | exact trivial
    | exact ⟨rfl, trivial⟩
    | exact ⟨rfl, rfl, trivial⟩
    | exact ⟨rfl, rfl, rfl, trivial⟩

theorem positions_one {c d : Category} {t : Tree c} {p : Tree d} (hself : t.position? = none)
    (hparts : t.parts = [⟨d, p⟩]) : t.positions = p.positions := by
  rw [Tree.positions_eq, hself, hparts]
  exact List.append_nil _

theorem positions_two {c d e : Category} {t : Tree c} {p : Tree d} {q : Tree e}
    (hself : t.position? = none) (hparts : t.parts = [⟨d, p⟩, ⟨e, q⟩]) :
    t.positions = p.positions ++ q.positions := by
  rw [Tree.positions_eq, hself, hparts]
  simp only [Option.toList_none, List.nil_append, List.flatMap_cons, List.flatMap_nil,
    List.append_nil]

theorem positions_function {isAsync isGenerator : Bool} {name : Tree (.option .name)}
    {params : Tree (.list .binder)} {body : Block} :
    (Tree.function isAsync isGenerator name params body).positions =
      name.positions ++ (params.positions ++ body.positions) := by
  rw [Tree.positions_eq]
  show name.positions ++ (params.positions ++ (body.positions ++ [])) = _
  rw [List.append_nil]

/-- A function with an own scope, from what is known of its definition. -/
theorem Yields.definition {own : List Name} {isAsync isGenerator : Bool}
    {name : Tree (.option .name)} {params : Tree (.list .binder)} {body : Block} {s : State}
    (ih : ∀ q ∈ (Tree.function isAsync isGenerator name params body).phrases,
      walked q.1 = true → Resolves q.2)
    (hnone : none ∉ (Tree.function isAsync isGenerator name params body).positions)
    (hnodup : (Tree.function isAsync isGenerator name params body).positions.Nodup)
    (hfree : ∀ i, some i ∈ params.positions ++ body.positions → s.hoisted.contains i = false)
    (hclash : (Tree.functionScope own (s.strict || body.isStrict) params body
      (.join [params.outline (s.strict || body.isStrict),
        body.outline (s.strict || body.isStrict)])).NoClash) :
    Yields (Analysis.within .function do
        own.forM (declare .function)
        inFunction params body do resolve params; resolve body) s
      (Tree.functionScope own (s.strict || body.isStrict) params body
        (.join [params.outline (s.strict || body.isStrict), body.outline (s.strict || body.isStrict)]))
      (Tree.function isAsync isGenerator name params body).positions := by
  rw [positions_function] at hnone hnodup ⊢
  have hparts : Tree.Each (fun c t => walked c = true → Resolves t)
      (Tree.function isAsync isGenerator name params body).parts :=
    .of_forall fun p hp => ih p (Tree.mem_phrases_of_part hp p.2.self_mem_phrases)
  have hb : Resolves body := hparts.2.2.1 rfl
  have hp : Resolves params := hparts.2.1 rfl
  refine (Yields.functionParts hp hb (fun i hi => hi) (fun set hset => ?_)
    (fun h => hnone (List.mem_append_right _ h)) (List.nodup_append.mp hnodup).2.1 hfree hclash).mono
    fun i hi => List.mem_append_right _ hi
  exact .body hset fun i hi => hfree i (List.mem_append_right _ hi)

/-- A function without a name of its own declares no name before its parameters. -/
theorem forM_nil_seq (a : Analysis Unit) :
    (do ([] : List Name).forM (declare .function); a) = a := rfl

theorem resolve_function {isAsync isGenerator : Bool} {name : Tree (.option .name)}
    {params : Tree (.list .binder)} {body : Block} :
    resolve (.function isAsync isGenerator name params body) =
      (do
        ([] : List Name).forM (declare .function)
        inFunction params body do resolve params; resolve body) := rfl

/-- A method: its key is walked outside its scope. -/
theorem Yields.method {key : Tree .key} {isAsync isGenerator : Bool} {name : Tree (.option .name)}
    {params : Tree (.list .binder)} {body : Block} {s : State} (hkey : Resolves key)
    (ih : ∀ q ∈ (Tree.function isAsync isGenerator name params body).phrases,
      walked q.1 = true → Resolves q.2)
    (hnone : none ∉ key.positions ++ (Tree.function isAsync isGenerator name params body).positions)
    (hnodup : (key.positions ++
      (Tree.function isAsync isGenerator name params body).positions).Nodup)
    (hfree : ∀ i, some i ∈ key.positions ++
      (Tree.function isAsync isGenerator name params body).positions → s.hoisted.contains i = false)
    (hclash : (Outline.join [key.outline s.strict, Tree.functionScope [] (s.strict || body.isStrict)
      params body (.join [params.outline (s.strict || body.isStrict),
        body.outline (s.strict || body.isStrict)])]).NoClash) :
    Yields (do
        resolve key
        Analysis.within .function (resolve (.function isAsync isGenerator name params body))) s
      (.join [key.outline s.strict, Tree.functionScope [] (s.strict || body.isStrict) params body
        (.join [params.outline (s.strict || body.isStrict), body.outline (s.strict || body.isStrict)])])
      (key.positions ++ (Tree.function isAsync isGenerator name params body).positions) := by
  rw [List.mem_append, not_or] at hnone
  obtain ⟨hnk, hnf, hdisjoint⟩ := List.nodup_append.mp hnodup
  have hall := Outline.noClash_join.mp hclash
  have hfreeK : ∀ i, some i ∈ key.positions → s.hoisted.contains i = false :=
    fun i hi => hfree i (List.mem_append_left _ hi)
  have hfirst := hkey s hnone.1 hnk (hall _ List.mem_cons_self)
    (.of_free hfreeK (.inr (Tree.blockFunctions_of_quiet rfl false key)))
  rw [Outline.join, List.foldr_cons, List.foldr_cons, List.foldr_nil, Outline.append_nil]
  refine hfirst.seq fun set hset => ?_
  rw [resolve_function]
  refine Yields.definition ih hnone.2 hnf (fun i hi => ?_)
    (hall _ (List.mem_cons_of_mem _ List.mem_cons_self))
  have hi' : some i ∈ (Tree.function isAsync isGenerator name params body).positions := by
    rw [positions_function]
    exact List.mem_append_right _ hi
  rw [hset i fun h => hdisjoint _ h _ hi' rfl]
  exact hfree i (List.mem_append_right _ hi')

/-- The members of a class, walked as strict code. -/
theorem Yields.classMembers {own : Option Name} {members : Tree (.list .member)} {s : State}
    (hmembers : Resolves members) (hnone : none ∉ members.positions)
    (hnodup : members.positions.Nodup)
    (hfree : ∀ i, some i ∈ members.positions → s.hoisted.contains i = false)
    (hclash : (members.outline true).NoClash) :
    Yields (inClass own (resolve members)) s
      (Tree.namedScope .classBody .classDef own.toList (members.outline true)) members.positions := by
  have hnames : Outline.allDeclared (own.toList.map (·, .classDef)) [] =
      own.toList.map (·, .classDef) := List.append_nil _
  obtain ⟨set, heq, hset⟩ := hmembers
    { s with graph := s.graph.enter .classBody (some s.current) (own.toList.map (·, .classDef))
             current := s.graph.scopes.size
             strict := true } hnone hnodup hclash (.of_free hfree (.inl rfl))
  refine ⟨set, ?_, hset⟩
  have hdecl := after_declareAll .classDef own.toList
    { s with graph := s.graph.openScope .classBody (some s.current)
             current := s.graph.scopes.size
             strict := true }
  rw [declareAll] at hdecl
  rw [inClass, after_within, after_withStrictness, after_seq, hdecl, Tree.namedScope, Outline.run,
    hnames]
  exact congrArg (fun s' : State => { s' with strict := s.strict, current := s.current }) heq

/-- A class: its heritage is walked outside its scope. -/
theorem Yields.classParts {own : Option Name} {name : Tree (.option .name)}
    {heritage : Tree (.option .expr)} {members : Tree (.list .member)} {s : State}
    (ih : ∀ q ∈ (Tree.classDef name heritage members).phrases, walked q.1 = true → Resolves q.2)
    (hnone : none ∉ (Tree.classDef name heritage members).positions)
    (hnodup : (Tree.classDef name heritage members).positions.Nodup)
    (hfree : ∀ i, some i ∈ (Tree.classDef name heritage members).positions →
      s.hoisted.contains i = false)
    (hclash : (Outline.join [heritage.outline s.strict, Tree.namedScope .classBody .classDef own.toList
      (members.outline true)]).NoClash) :
    Yields (do resolve heritage; inClass own (resolve members)) s
      (.join [heritage.outline s.strict, Tree.namedScope .classBody .classDef own.toList
        (members.outline true)]) (Tree.classDef name heritage members).positions := by
  have hpos : (Tree.classDef name heritage members).positions =
      name.positions ++ (heritage.positions ++ members.positions) := by
    rw [Tree.positions_eq]
    show name.positions ++ (heritage.positions ++ (members.positions ++ [])) = _
    rw [List.append_nil]
  rw [hpos] at hnone hnodup hfree ⊢
  obtain ⟨-, hnodup', -⟩ := List.nodup_append.mp hnodup
  obtain ⟨hnh, hnm, hdisjoint⟩ := List.nodup_append.mp hnodup'
  simp only [List.mem_append, not_or] at hnone
  have hparts : Tree.Each (fun c t => walked c = true → Resolves t)
      (Tree.classDef name heritage members).parts :=
    .of_forall fun p hp => ih p (Tree.mem_phrases_of_part hp p.2.self_mem_phrases)
  have hh : Resolves heritage := hparts.2.1 rfl
  have hm : Resolves members := hparts.2.2.1 rfl
  have hall := Outline.noClash_join.mp hclash
  have hfreeH : ∀ i, some i ∈ heritage.positions → s.hoisted.contains i = false :=
    fun i hi => hfree i (List.mem_append_right _ (List.mem_append_left _ hi))
  have hfirst := hh s hnone.2.1 hnh (hall _ List.mem_cons_self)
    (.of_free hfreeH (.inr (Tree.blockFunctions_of_quiet rfl false heritage)))
  rw [Outline.join, List.foldr_cons, List.foldr_cons, List.foldr_nil, Outline.append_nil]
  refine (hfirst.seq fun set hset => ?_).mono fun i hi => List.mem_append_right _ hi
  refine Yields.classMembers hm hnone.2.2 hnm (fun i hi => ?_)
    (hall _ (List.mem_cons_of_mem _ List.mem_cons_self)).2.1
  rw [hset i fun hi' => hdisjoint _ hi' _ hi rfl]
  exact hfree i (List.mem_append_right _ (List.mem_append_right _ hi))

/-- Identifiers, functions and classes. -/
theorem resolves_of_quiet {c : Category} {t : Tree c} (hquiet : c.quiet = true)
    (hplain : t.plain = false) (hc : walked c = true)
    (ih : ∀ p ∈ t.parts, ∀ q ∈ p.2.phrases, walked q.1 = true → Resolves q.2) : Resolves t := by
  intro s hnone hnodup hclash hready
  have hfree : ∀ i, some i ∈ t.positions → s.hoisted.contains i = false := by
    intro i hi
    refine Bool.eq_false_iff.mpr fun hin => ?_
    have hmem := (hready.only i hi hin).2
    rw [Tree.blockFunctions_of_quiet hquiet] at hmem
    cases hmem
  have hparts : Tree.Each (fun c t => walked c = true → Resolves t) t.parts :=
    .of_forall fun p hp => ih p hp p p.2.self_mem_phrases
  cases t with
  | identExpr name => exact ⟨s.hoisted, after_reference name s, fun _ _ => rfl⟩
  | shorthand name => exact ⟨s.hoisted, after_reference name s, fun _ _ => rfl⟩
  | classDef _ _ _ => exact ⟨s.hoisted, rfl, fun _ _ => rfl⟩
  | functionExpr fn =>
    cases fn with
    | function isAsync isGenerator name params body =>
      rw [positions_one rfl rfl] at hnone hnodup hfree ⊢
      refine Yields.definition (ih _ List.mem_cons_self) hnone hnodup (fun i hi => ?_) hclash
      rw [positions_function] at hfree
      exact hfree i (List.mem_append_right _ hi)
  | methodProp kind key fn =>
    cases fn with
    | function isAsync isGenerator name params body =>
      rw [positions_two rfl rfl] at hnone hnodup hfree ⊢
      exact Yields.method (hparts.1 rfl) (ih _ (List.mem_cons_of_mem _ List.mem_cons_self)) hnone hnodup
        hfree hclash
  | method kind isStatic key fn =>
    cases fn with
    | function isAsync isGenerator name params body =>
      rw [positions_two rfl rfl] at hnone hnodup hfree ⊢
      exact Yields.method (hparts.1 rfl) (ih _ (List.mem_cons_of_mem _ List.mem_cons_self)) hnone hnodup
        hfree hclash
  | classExpr definition =>
    cases definition with
    | classDef name heritage members =>
      rw [positions_one rfl rfl] at hnone hnodup hfree ⊢
      exact Yields.classParts (ih _ List.mem_cons_self) hnone hnodup hfree hclash
  | arrow isAsync params inner =>
    rw [positions_two rfl rfl] at hnone hnodup hfree ⊢
    have hp : Resolves params := hparts.1 rfl
    have hrest := fun q hq => ih _ (List.mem_cons_of_mem _ List.mem_cons_self) q
      (Tree.mem_phrases_of_part hq q.2.self_mem_phrases)
    cases inner with
    | exprBody value =>
      have hv : Resolves value := hrest ⟨_, value⟩ List.mem_cons_self rfl
      have hpos : (Tree.exprBody value).positions = value.positions := positions_one rfl rfl
      rw [hpos] at hnone hnodup hfree ⊢
      show Yields (Analysis.within .function (inFunction params (.stmts .nil) do
        resolve params
        resolve value)) s _ _
      rw [← forM_nil_seq (inFunction _ _ _)]
      refine Yields.functionParts hp hv (fun i hi => (nomatch hi)) (fun set hset => ?_) hnone hnodup hfree
        hclash
      exact .beside rfl hset (fun i hi => hfree i (List.mem_append_right _ hi))
        fun i _ hi => (nomatch hi)
    | blockBody body =>
      have hb : Resolves body := hrest ⟨_, body⟩ List.mem_cons_self rfl
      have hpos : (Tree.blockBody body).positions = body.positions := positions_one rfl rfl
      rw [hpos] at hnone hnodup hfree ⊢
      show Yields (Analysis.within .function (inFunction params body do
        resolve params
        resolve body)) s _ _
      rw [← forM_nil_seq (inFunction _ _ _)]
      refine Yields.functionParts hp hb (fun i hi => hi) (fun set hset => ?_) hnone hnodup hfree hclash
      exact .body hset fun i hi => hfree i (List.mem_append_right _ hi)
  | staticBlock body =>
    rw [positions_one rfl rfl] at hnone hnodup hfree ⊢
    have hnil : Resolves (.nil : Tree (.list .binder)) := resolves_of_plain rfl fun p hp => (nomatch hp)
    show Yields (Analysis.within .function (inFunction .nil body do
      resolve (.nil : Tree (.list .binder))
      resolve body)) s _ _
    rw [← forM_nil_seq (inFunction _ _ _)]
    refine Yields.functionParts hnil (hparts.1 rfl) (fun i hi => hi) (fun set hset => ?_) hnone hnodup
      hfree hclash
    exact .body hset fun i hi => hfree i hi
  | _ =>
    first
    | exact absurd hc Bool.false_ne_true
    | exact absurd hquiet Bool.false_ne_true
    | exact absurd hplain Bool.noConfusion

theorem mem_positions_toOption {name : Tree (.option .name)} {n : Name}
    (hn : n ∈ name.toOption.toList) : n.nameId? ∈ name.positions := by
  have hpos : 0 < Tree.tally n.nameId? name.toOption.toList :=
    List.count_pos_iff.mpr (List.mem_map_of_mem hn)
  exact List.count_pos_iff.mp (Nat.lt_of_lt_of_le hpos (Tree.tally_toOption n.nameId? name))

/-- A nested statement list in a scope of its own. -/
theorem Yields.block {c : Category} {t : Tree c} {kind : ScopeKind} {s : State} (ht : Resolves t)
    (hnone : none ∉ t.positions) (hnodup : t.positions.Nodup)
    (hclash : (t.nestedScope kind s.strict (t.outline s.strict)).NoClash)
    (hready : Ready t s.strict s.hoisted)
    (hhoisted : s.strict = false → ∀ n ∈ t.blockFunctions true, ∀ i, n.nameId? = some i →
      s.hoisted.contains i = true) :
    Yields (Analysis.within kind do declareLexical t; resolve t) s
      (t.nestedScope kind s.strict (t.outline s.strict)) t.positions :=
  Yields.nested hnone hhoisted (fun i hi hin => (hready.only i hi hin).1)
    fun _ _ => ht _ hnone hnodup hclash.2.1 hready

/-- A phrase and then a nested statement list. -/
theorem Yields.seqBlock {c d : Category} {a : Tree c} {t : Tree d} {kind : ScopeKind} {s : State}
    (ha : Resolves a) (ht : Resolves t) (hnone : none ∉ a.positions ++ t.positions)
    (hnodup : (a.positions ++ t.positions).Nodup)
    (hclash : (Outline.join [a.outline s.strict,
      t.nestedScope kind s.strict (t.outline s.strict)]).NoClash)
    (hready : Ready a s.strict s.hoisted) (hready' : Ready t s.strict s.hoisted)
    (hhoisted : s.strict = false → ∀ n ∈ t.blockFunctions true, ∀ i, n.nameId? = some i →
      s.hoisted.contains i = true) :
    Yields (do resolve a; Analysis.within kind do declareLexical t; resolve t) s
      (.join [a.outline s.strict, t.nestedScope kind s.strict (t.outline s.strict)])
      (a.positions ++ t.positions) := by
  rw [List.mem_append, not_or] at hnone
  obtain ⟨hna, hnt, hdisjoint⟩ := List.nodup_append.mp hnodup
  have hall := Outline.noClash_join.mp hclash
  rw [Outline.join, List.foldr_cons, List.foldr_cons, List.foldr_nil, Outline.append_nil]
  refine (ha s hnone.1 hna (hall _ List.mem_cons_self) hready).seq fun set hset => ?_
  have hsame : ∀ i, some i ∈ t.positions → set.contains i = s.hoisted.contains i :=
    fun i hi => hset i fun hi' => hdisjoint _ hi' _ hi rfl
  refine Yields.block ht hnone.2 hnt (hall _ (List.mem_cons_of_mem _ List.mem_cons_self))
    (hready'.congr hsame) fun hst n hn i hi => ?_
  rw [hsame i (hi ▸ t.blockFunctions_positions n hn)]
  exact hhoisted hst n hn i hi

/-- A `finally` block, if there is one. -/
theorem Yields.finalizer {finalizer : Tree (.option .block)} {s : State}
    (ih : ∀ q ∈ finalizer.phrases, walked q.1 = true → Resolves q.2)
    (hnone : none ∉ finalizer.positions) (hnodup : finalizer.positions.Nodup)
    (hclash : (Tree.finallyScope s.strict finalizer (finalizer.outline s.strict)).NoClash)
    (hready : Ready finalizer s.strict s.hoisted)
    (hhoisted : s.strict = false → ∀ n ∈ finalizer.blockFunctions true, ∀ i, n.nameId? = some i →
      s.hoisted.contains i = true) :
    Yields (do if let some last := finalizer.toOption then inBlock last (resolve finalizer)) s
      (Tree.finallyScope s.strict finalizer (finalizer.outline s.strict)) finalizer.positions := by
  cases finalizer with
  | none => exact ⟨s.hoisted, rfl, fun _ _ => rfl⟩
  | some last =>
    have hout : (Tree.some last).outline s.strict = last.outline s.strict := Outline.append_nil _
    have hlast : Resolves last := ih ⟨_, last⟩
      (Tree.mem_phrases_of_part List.mem_cons_self last.self_mem_phrases) rfl
    have hready' : Ready last s.strict s.hoisted := hready.visited rfl hnodup List.mem_cons_self
    rw [positions_one rfl rfl] at hnone hnodup ⊢
    rw [hout] at hclash ⊢
    exact Yields.block hlast hnone hnodup hclash hready' hhoisted

/-- A `try`, with what catches and what comes last. -/
theorem Yields.tryParts {inner : Block} {caught : Tree (.option .handler)}
    {finalizer : Tree (.option .block)} {s : State} (hinner : Resolves inner)
    (hcaught : Resolves caught) (ih : ∀ q ∈ finalizer.phrases, walked q.1 = true → Resolves q.2)
    (hnone : none ∉ (Tree.tryStmt inner caught finalizer).positions)
    (hnodup : (Tree.tryStmt inner caught finalizer).positions.Nodup)
    (hclash : ((Tree.tryStmt inner caught finalizer).outline s.strict).NoClash)
    (hready : Ready (Tree.tryStmt inner caught finalizer) s.strict s.hoisted) :
    Yields (resolve (.tryStmt inner caught finalizer)) s
      ((Tree.tryStmt inner caught finalizer).outline s.strict)
      (Tree.tryStmt inner caught finalizer).positions := by
  have hi : Ready inner s.strict s.hoisted := hready.visited rfl hnodup List.mem_cons_self
  have hc : Ready caught s.strict s.hoisted :=
    hready.visited rfl hnodup (List.mem_cons_of_mem _ List.mem_cons_self)
  have hf : Ready finalizer s.strict s.hoisted := hready.visited rfl hnodup
    (List.mem_cons_of_mem _ (List.mem_cons_of_mem _ List.mem_cons_self))
  have hh : s.strict = false → ∀ n ∈ inner.blockFunctions true ++ caught.blockFunctions true ++
      finalizer.blockFunctions true, ∀ i, n.nameId? = some i → s.hoisted.contains i = true :=
    hready.hoisted
  have hpos : (Tree.tryStmt inner caught finalizer).positions =
      inner.positions ++ (caught.positions ++ finalizer.positions) := by
    rw [Tree.positions_eq]
    show inner.positions ++ (caught.positions ++ (finalizer.positions ++ [])) = _
    rw [List.append_nil]
  rw [hpos] at hnone hnodup ⊢
  simp only [List.mem_append, not_or] at hnone
  obtain ⟨hni, hrest, hdi⟩ := List.nodup_append.mp hnodup
  obtain ⟨hnc, hnf, hdc⟩ := List.nodup_append.mp hrest
  have hall := Outline.noClash_join.mp hclash
  show Yields (do
    inBlock inner (resolve inner)
    resolve caught
    if let some last := finalizer.toOption then inBlock last (resolve finalizer)) s
    (.append _ (.append _ (.append _ .nil))) _
  rw [Outline.append_nil]
  refine Yields.seq (Yields.block hinner hnone.1 hni (hall _ List.mem_cons_self) hi
    fun hst n hn => hh hst n (List.mem_append_left _ (List.mem_append_left _ hn))) fun set hset => ?_
  have hsame : ∀ i, some i ∈ caught.positions ++ finalizer.positions →
      set.contains i = s.hoisted.contains i := fun i hi => hset i fun hi' => hdi _ hi' _ hi rfl
  refine Yields.seq (hcaught _ hnone.2.1 hnc (hall _ (List.mem_cons_of_mem _ List.mem_cons_self))
    (hc.congr fun i hi => hsame i (List.mem_append_left _ hi))) fun set' hset' => ?_
  have hsame' : ∀ i, some i ∈ finalizer.positions → set'.contains i = s.hoisted.contains i :=
    fun i hi => (hset' i fun hi' => hdc _ hi' _ hi rfl).trans (hsame i (List.mem_append_right _ hi))
  refine Yields.finalizer ih hnone.2.2 hnf
    (hall _ (List.mem_cons_of_mem _ (List.mem_cons_of_mem _ List.mem_cons_self)))
    (hf.congr hsame') fun hst n hn i hi => ?_
  rw [hsame' i (hi ▸ finalizer.blockFunctions_positions n hn)]
  exact hh hst n (List.mem_append_right _ hn) i hi

/-- A loop: its head declares names in a scope around the whole of it. -/
theorem Yields.loop {c : Category} {head : Tree c} {ps : List Phrase} {s : State} (hq : c.quiet = true)
    (hmem : (⟨c, head⟩ : Phrase) ∈ ps) (hps : ∀ p ∈ ps, Resolves p.2)
    (hnone : none ∉ ps.flatMap (·.2.positions)) (hnodup : (ps.flatMap (·.2.positions)).Nodup)
    (hclash : (head.nestedScope .loopHead s.strict
      (.join (ps.map fun p => p.2.outline s.strict))).NoClash)
    (hready : ∀ p ∈ ps, Ready p.2 s.strict s.hoisted) :
    Yields (Analysis.within .loopHead do declareLexical head; ps.forM fun p => resolve p.2) s
      (head.nestedScope .loopHead s.strict (.join (ps.map fun p => p.2.outline s.strict)))
      (ps.flatMap (·.2.positions)) := by
  have hall := Outline.noClash_join.mp hclash.2.1
  refine Yields.nested (fun h => hnone (List.mem_flatMap.mpr ⟨_, hmem, h⟩)) (fun _ n hn => ?_)
    (fun i hi hin => ((hready _ hmem).only i hi hin).1) fun _ _ => ?_
  · rw [Tree.blockFunctions_of_quiet hq] at hn
    cases hn
  · exact yields_all ps hps hnone hnodup (fun p hp => hall _ (List.mem_map_of_mem hp)) hready

/-- Statements that open scopes. -/
theorem resolves_of_statement {c : Category} {t : Tree c} (hquiet : c.quiet = false)
    (hplain : t.plain = false)
    (ih : ∀ p ∈ t.parts, ∀ q ∈ p.2.phrases, walked q.1 = true → Resolves q.2) : Resolves t := by
  intro s hnone hnodup hclash hready
  have hparts : Tree.Each (fun c t => walked c = true → Resolves t) t.parts :=
    .of_forall fun p hp => ih p hp p p.2.self_mem_phrases
  cases t with
  | functionStmt fn =>
    cases fn with
    | function isAsync isGenerator name params body =>
      have hpos : (Tree.functionStmt (.function isAsync isGenerator name params body)).positions =
          (Tree.function isAsync isGenerator name params body).positions := positions_one rfl rfl
      have honly := hready.only
      rw [hpos] at hnone hnodup honly ⊢
      show Yields (Analysis.within .function (resolve _)) s _ _
      rw [resolve_function]
      refine Yields.definition (ih _ List.mem_cons_self) hnone hnodup (fun i hi => ?_) hclash
      rw [positions_function] at hnodup honly
      obtain ⟨-, -, hdisjoint⟩ := List.nodup_append.mp hnodup
      refine Bool.eq_false_iff.mpr fun hin => ?_
      -- only the name of the function may count as hoisted
      obtain ⟨-, hmem⟩ := honly i (List.mem_append_right _ hi) hin
      obtain ⟨n, hn, hni⟩ := List.mem_map.mp hmem
      exact hdisjoint _ (hni ▸ mem_positions_toOption hn) _ hi rfl
  | classStmt definition =>
    cases definition with
    | classDef name heritage members =>
      have hfree : ∀ i, some i ∈ (Tree.classStmt (.classDef name heritage members)).positions →
          s.hoisted.contains i = false := by
        intro i hi
        refine Bool.eq_false_iff.mpr fun hin => ?_
        cases (hready.only i hi hin).2
      rw [positions_one rfl rfl] at hnone hnodup hfree ⊢
      show Yields (do resolve heritage; inClass none (resolve members)) s _ _
      exact Yields.classParts (ih _ List.mem_cons_self) hnone hnodup hfree hclash
  | blockStmt inner =>
    have hinner : Ready inner s.strict s.hoisted := hready.visited rfl hnodup List.mem_cons_self
    have hh := hready.hoisted
    rw [positions_one rfl rfl] at hnone hnodup ⊢
    exact Yields.block (hparts.1 rfl) hnone hnodup hclash hinner hh
  | forStmt init test step inner =>
    have hsub := visited_positions (Tree.forStmt init test step inner)
    have hps : Tree.Each (fun _ t => Resolves t) (Tree.forStmt init test step inner).visited :=
      ⟨hparts.1 rfl, hparts.2.1 rfl, hparts.2.2.1 rfl, hparts.2.2.2.1 rfl, trivial⟩
    exact (Yields.loop rfl List.mem_cons_self hps.of_mem (fun h => hnone (hsub.subset h))
      (hnodup.sublist hsub) hclash fun p hp => hready.visited rfl hnodup hp).mono fun i hi => hsub.subset hi
  | forIn left right inner =>
    have hsub := visited_positions (Tree.forIn left right inner)
    have hps : Tree.Each (fun _ t => Resolves t) (Tree.forIn left right inner).visited :=
      ⟨hparts.1 rfl, hparts.2.1 rfl, hparts.2.2.1 rfl, trivial⟩
    exact (Yields.loop rfl List.mem_cons_self hps.of_mem (fun h => hnone (hsub.subset h))
      (hnodup.sublist hsub) hclash fun p hp => hready.visited rfl hnodup hp).mono fun i hi => hsub.subset hi
  | forOf isAwait left right inner =>
    have hsub := visited_positions (Tree.forOf isAwait left right inner)
    have hps : Tree.Each (fun _ t => Resolves t) (Tree.forOf isAwait left right inner).visited :=
      ⟨hparts.1 rfl, hparts.2.1 rfl, hparts.2.2.1 rfl, trivial⟩
    exact (Yields.loop rfl List.mem_cons_self hps.of_mem (fun h => hnone (hsub.subset h))
      (hnodup.sublist hsub) hclash fun p hp => hready.visited rfl hnodup hp).mono fun i hi => hsub.subset hi
  | switchStmt discriminant cases =>
    have hd : Ready discriminant s.strict s.hoisted := hready.visited rfl hnodup List.mem_cons_self
    have hcases : Ready cases s.strict s.hoisted :=
      hready.visited rfl hnodup (List.mem_cons_of_mem _ List.mem_cons_self)
    have hh := hready.hoisted
    rw [positions_two rfl rfl] at hnone hnodup ⊢
    exact Yields.seqBlock (hparts.1 rfl) (hparts.2.1 rfl) hnone hnodup hclash hd hcases hh
  | handler param inner =>
    have hp : Ready param s.strict s.hoisted := hready.visited rfl hnodup List.mem_cons_self
    have hinner : Ready inner s.strict s.hoisted :=
      hready.visited rfl hnodup (List.mem_cons_of_mem _ List.mem_cons_self)
    have hh := hready.hoisted
    rw [positions_two rfl rfl] at hnone hnodup ⊢
    refine Yields.named fun graph current => ?_
    exact Yields.seqBlock (hparts.1 rfl) (hparts.2.1 rfl) hnone hnodup hclash.2.1 hp hinner hh
  | tryStmt inner caught finalizer =>
    exact Yields.tryParts (hparts.1 rfl) (hparts.2.1 rfl)
      (ih _ (List.mem_cons_of_mem _ (List.mem_cons_of_mem _ List.mem_cons_self))) hnone hnodup hclash
      hready
  | _ =>
    first
    | exact absurd hquiet Bool.noConfusion
    | exact absurd hplain Bool.noConfusion

/-- Every phrase that is walked by itself is walked along its outline. -/
theorem resolves {c : Category} (t : Tree c) (hc : walked c = true) : Resolves t := by
  induction t using Tree.induction_on_phrases with
  | step c t ih =>
    cases hplain : t.plain with
    | true =>
      refine resolves_of_plain hplain fun p hp => ?_
      have hpart : p ∈ t.parts := Tree.parts_eq t ▸ List.mem_append_left _ hp
      exact ih p hpart p p.2.self_mem_phrases (walked_visited hplain hc p hp)
    | false =>
      cases hquiet : c.quiet with
      | true => exact resolves_of_quiet hquiet hplain hc ih
      | false => exact resolves_of_statement hquiet hplain ih

end Analysis

end Scope

/-! ## Programs -/

namespace Program

/-- What a program declares in its own scope, beside block functions. -/
def names (p : Program) : List (Name × BindingKind) := Scope.Analysis.bodyNames p.body

/-- The block functions that a program hoists to its own scope. -/
def hoisted (p : Program) : List Name := p.body.hoistedNames p.body.isStrict

/-- What is inside the scope of a program. -/
def inside (p : Program) : Outline := p.body.outline p.body.isStrict

/-- The outline of a program: one scope. -/
def outline (p : Program) : Outline := .scope .program p.names p.hoisted p.inside .nil

end Program

/-- The graph of an outline that is the scope of a whole program. -/
def Outline.graph (declared : List (Name × BindingKind)) (hoisted : List Name) (inside : Outline) :
    ScopeGraph :=
  inside.run ScopeGraph.root
    (ScopeGraph.enter { scopes := #[] } .program none (allDeclared declared hoisted))

open Scope Scope.Analysis in
/-- The scope graph of a program is that of its outline. -/
theorem Program.scopeGraph_eq_run {p : Program} (hp : p.body.Positioned) (hclash : p.outline.NoClash) :
    p.scopeGraph = Outline.graph p.names p.hoisted p.inside := by
  let s : State := { strict := p.body.isStrict }
  have hempty : ∀ i, s.hoisted.contains i = false := fun _ => rfl
  have hstems : s.graph.Stems s.current [] :=
    ScopeGraph.stems_openScope { scopes := #[] } .program none
  obtain ⟨set, hbody, hset⟩ := after_declareBody hstems (fun i _ => hempty i) hclash.1
  obtain ⟨set', hinside, -⟩ := resolves p.body rfl
    { s.declaring (Outline.allDeclared p.names p.hoisted) with hoisted := set } hp.placed hp.distinct
    hclash.2.1 (Ready.body hset fun i _ => hempty i)
  show (after (resolve p.body) (after (declareBody p.body) s)).graph = _
  rw [hbody]
  exact congrArg State.graph hinside

end Unminify
