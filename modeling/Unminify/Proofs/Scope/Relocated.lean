import Unminify.Proofs.Scope.Renamed
import Unminify.Proofs.Syntax.Relocated

/-!
# Scopes at other positions

Scope analysis uses the positions of identifiers as keys and looks at nothing else of them. Two graphs
*track* each other along an injective map of positions if they have the same scopes and the same
bindings, and what the one has at a position the other has at the image of it. Every step of the
analysis keeps that up (`tracked_resolve`), so the graph of a program and that of the program at other
positions track each other (`tracks_scopeGraph`).

Renames of bindings keep it up as well, and applying them at other positions gives the renamed tree at
other positions (`Tracks.renamed`).
-/

namespace Unminify

variable {φ : Nat → Nat}

/-! ## Declared names -/

namespace Tree

variable (φ) {c : Category}

open ScopeGraph (append_eq_map)

/-- A declared name at another position. -/
def relocateDeclared (d : Name × BindingKind) : Name × BindingKind := (d.1.relocate φ, d.2)

theorem boundNames_relocate (t : Tree c) : (t.relocate φ).boundNames = t.boundNames.map (relocate φ) := by
  induction t with
  | cons head tail ih ih' => exact append_eq_map ih ih'
  | _ => first | rfl | assumption

theorem hoistedVars_relocate (t : Tree c) : (t.relocate φ).hoistedVars = t.hoistedVars.map (relocate φ) := by
  induction t with
  | varDecl kind declarators _ =>
    cases kind with
    | var => exact boundNames_relocate φ declarators
    | _ => rfl
  | tryStmt inner caught finalizer ih ih' ih'' => exact append_eq_map (append_eq_map ih ih') ih''
  | _ => first | rfl | assumption | (apply append_eq_map <;> assumption)

theorem toOption_relocate (t : Tree (.option c)) : (t.relocate φ).toOption = t.toOption.map (relocate φ) := by
  cases t <;> rfl

theorem definedName_relocate (t : Tree c) : (t.relocate φ).definedName = t.definedName.map (relocate φ) := by
  cases t with
  | function isAsync isGenerator name params inner => exact toOption_relocate φ name
  | classDef name heritage members => exact toOption_relocate φ name
  | _ => rfl

theorem toList_definedName_relocate (t : Tree c) :
    (t.relocate φ).definedName.toList = t.definedName.toList.map (relocate φ) := by
  rw [definedName_relocate, Option.toList_map]

theorem blockFunctions_relocate (nested : Bool) (t : Tree c) :
    (t.relocate φ).blockFunctions nested = (t.blockFunctions nested).map (relocate φ) := by
  induction t generalizing nested with
  | functionStmt fn _ =>
    cases nested with
    | true => exact toList_definedName_relocate φ fn
    | false => rfl
  | ifStmt _ consequent alternate _ ih ih' => exact append_eq_map (ih true) (ih' true)
  | tryStmt inner caught finalizer ih ih' ih'' =>
    exact append_eq_map (append_eq_map (ih true) (ih' true)) (ih'' true)
  | cons head tail ih ih' => exact append_eq_map (ih nested) (ih' nested)
  | _ => first | rfl | (rename_i ih; exact ih _)

theorem lexicalNames_relocate (t : Tree c) :
    (t.relocate φ).lexicalNames = t.lexicalNames.map (relocateDeclared φ) := by
  have hpair : ∀ (as : BindingKind) {ns ms : List Name}, ms = ns.map (relocate φ) →
      ms.map (·, as) = (ns.map (·, as)).map (relocateDeclared φ) := by
    intro as ns ms h
    rw [h, List.map_map, List.map_map]
    rfl
  induction t with
  | varDecl kind declarators _ =>
    cases kind with
    | var => rfl
    | lexical => exact hpair .lexical (boundNames_relocate φ declarators)
    | constant => exact hpair .constant (boundNames_relocate φ declarators)
  | functionStmt fn _ => exact hpair .function (toList_definedName_relocate φ fn)
  | classStmt definition _ => exact hpair .classDef (toList_definedName_relocate φ definition)
  | cons head tail ih ih' => exact append_eq_map ih ih'
  | _ => first | rfl | assumption

theorem isComment_relocate (s : Stmt) : (s.relocate φ).isComment = s.isComment := by
  cases s <;> rfl

theorem directive?_relocate (s : Stmt) : (s.relocate φ).directive? = s.directive? := by
  cases s with
  | exprStmt e =>
    cases e with
    | literal l => cases l <;> rfl
    | _ => rfl
  | _ => rfl

/-- Directives are told by their texts. -/
theorem isStrict_relocate (b : Block) : (b.relocate φ).isStrict = b.isStrict := by
  have hcomment : (fun s => !s.isComment) ∘ relocate φ (c := .stmt) = fun s => !s.isComment :=
    funext fun s => congrArg (!·) (isComment_relocate φ s)
  have hdirective : directive? ∘ relocate φ (c := .stmt) = directive? :=
    funext (directive?_relocate φ)
  rw [isStrict_eq, isStrict_eq, statements_relocate, List.filter_map, List.map_map, hcomment, hdirective]

theorem arrowBlock_relocate (t : Tree .arrowBody) : (t.relocate φ).arrowBlock = t.arrowBlock.relocate φ := by
  cases t <;> rfl

theorem plain_relocate (t : Tree c) : (t.relocate φ).plain = t.plain := by
  cases t <;> rfl

theorem nameId?_relocate (n : Name) : (n.relocate φ).nameId? = n.nameId?.map φ := by
  cases n <;> rfl

theorem nameText?_relocate (n : Name) : (n.relocate φ).nameText? = n.nameText? := by
  cases n <;> rfl

end Tree

/-! ## Graphs -/

/-- A reference at another position. -/
def Reference.relocate (φ : Nat → Nat) (r : Reference) : Reference := { r with id := φ r.id }

/-- A binding with its declarations and references at other positions. -/
def Binding.relocate (φ : Nat → Nat) (b : Binding) : Binding :=
  { b with
    declarations := b.declarations.map φ
    references := b.references.map (Reference.relocate φ) }

namespace ScopeGraph

/-- A graph has at the images of positions what another one has at the positions. -/
structure Tracks (φ : Nat → Nat) (g g' : ScopeGraph) : Prop where
  scopes : g'.scopes = g.scopes
  bindings : g'.bindings = g.bindings.map (Binding.relocate φ)
  bindingAt : ∀ i, g'.bindingAt (φ i) = g.bindingAt i
  globals : g'.globals = g.globals

variable {g g' : ScopeGraph}

namespace Tracks

variable (h : Tracks φ g g')

include h

theorem getElem? (b : BindingId) : g'.bindings[b]? = g.bindings[b]?.map (Binding.relocate φ) := by
  rw [h.bindings, Array.getElem?_map]

theorem size : g'.bindings.size = g.bindings.size := by
  rw [h.bindings, Array.size_map]

theorem isNamed (name : String) (b : BindingId) : g'.isNamed name b = g.isNamed name b := by
  rw [ScopeGraph.isNamed, ScopeGraph.isNamed, h.getElem?]
  cases g.bindings[b]? <;> rfl

theorem findHere (s : ScopeId) (name : String) : g'.findHere s name = g.findHere s name := by
  have hnamed : g'.isNamed name = g.isNamed name := funext (h.isNamed name)
  simp only [ScopeGraph.findHere, findIn, h.scopes, hnamed]

theorem lookup (s : ScopeId) (name : String) : g'.lookup s name = g.lookup s name :=
  lookup_congr (fun t _ => by rw [h.scopes]) fun b _ => h.isNamed name b

theorem isNameFree (b : BindingId) (name : String) : g'.isNameFree b name = g.isNameFree b name := by
  unfold ScopeGraph.isNameFree isGlobal
  rw [h.getElem?, h.globals]
  cases g.bindings[b]? with
  | none => rfl
  | some target =>
    simp only [Option.map_some, Binding.relocate, h.lookup, Array.all_map]
    rfl

theorem freeNameFrom (b : BindingId) (name : String) (n bound : Nat) :
    g'.freeNameFrom b name n bound = g.freeNameFrom b name n bound := by
  induction bound generalizing n with
  | zero => rfl
  | succ bound ih => rw [ScopeGraph.freeNameFrom, ScopeGraph.freeNameFrom, h.isNameFree, ih]

theorem freeName (b : BindingId) (name : String) : g'.freeName b name = g.freeName b name := by
  rw [ScopeGraph.freeName, ScopeGraph.freeName, h.isNameFree, h.freeNameFrom, h.size, h.globals]

/-! ### Changes -/

/-- A change of one binding that does not look at positions. -/
theorem modify (b : BindingId) (f f' : Binding → Binding)
    (hf : ∀ x, f' (x.relocate φ) = (f x).relocate φ) :
    g'.bindings.modify b f' = (g.bindings.modify b f).map (Binding.relocate φ) := by
  refine Array.ext_getElem? fun i => ?_
  rw [Array.getElem?_modify, Array.getElem?_map, Array.getElem?_modify, h.getElem?]
  split
  · cases g.bindings[i]? with
    | none => rfl
    | some x => exact congrArg some (hf x)
  · rfl

theorem rename (b : BindingId) (name : String) : Tracks φ (g.rename b name) (g'.rename b name) where
  scopes := h.scopes
  bindings := h.modify b ({ · with name }) ({ · with name }) fun _ => rfl
  bindingAt := h.bindingAt
  globals := h.globals

theorem openScope (kind : ScopeKind) (parent : Option ScopeId) :
    Tracks φ (g.openScope kind parent) (g'.openScope kind parent) where
  scopes := by simp only [ScopeGraph.openScope, h.scopes]
  bindings := h.bindings
  bindingAt := h.bindingAt
  globals := h.globals

theorem insertGlobal (name : String) :
    Tracks φ { g with globals := g.globals.insert name } { g' with globals := g'.globals.insert name } where
  scopes := h.scopes
  bindings := h.bindings
  bindingAt := h.bindingAt
  globals := congrArg (·.insert name) h.globals

theorem addBinding (s : ScopeId) (name : String) (kind : BindingKind) :
    Tracks φ (g.addBinding s name kind) (g'.addBinding s name kind) where
  scopes := by simp only [ScopeGraph.addBinding, h.scopes, h.size]
  bindings := by
    simp only [ScopeGraph.addBinding, h.bindings, Array.map_push, Binding.relocate, Array.map_empty]
  bindingAt := h.bindingAt
  globals := h.globals

/-- Positions keep apart under an injective map. -/
theorem get?_insert (hφ : Function.Injective φ) (b : BindingId) (id i : Nat) :
    (g'.occurrences.insert (φ id) b).get? (φ i) = (g.occurrences.insert id b).get? i := by
  by_cases hi : id = i
  · subst hi
    simp only [Std.TreeMap.get?_eq_getElem?, Std.TreeMap.getElem?_insert_self]
  · rw [get?_insert_of_ne b hi, get?_insert_of_ne b fun heq => hi (hφ heq)]
    exact h.bindingAt i

theorem addDeclaration (hφ : Function.Injective φ) (b : BindingId) (id : Nat) :
    Tracks φ (g.addDeclaration b id) (g'.addDeclaration b (φ id)) where
  scopes := h.scopes
  bindings := h.modify b (fun x => { x with declarations := x.declarations.push id })
    (fun x => { x with declarations := x.declarations.push (φ id) })
    fun x => by simp only [Binding.relocate, Array.map_push]
  bindingAt i := h.get?_insert hφ b id i
  globals := h.globals

theorem addReference (hφ : Function.Injective φ) (b : BindingId) (r : Reference) :
    Tracks φ (g.addReference b r) (g'.addReference b (r.relocate φ)) where
  scopes := h.scopes
  bindings := h.modify b (fun x => { x with references := x.references.push r })
    (fun x => { x with references := x.references.push (r.relocate φ) })
    fun x => by simp only [Binding.relocate, Array.map_push]
  bindingAt i := h.get?_insert hφ b r.id i
  globals := h.globals

theorem bound (s : ScopeId) (name : String) (kind : BindingKind) :
    Tracks φ (g.bound s name kind).1 (g'.bound s name kind).1 ∧
      (g'.bound s name kind).2 = (g.bound s name kind).2 := by
  unfold ScopeGraph.bound
  rw [h.findHere]
  split
  · exact ⟨h, rfl⟩
  · exact ⟨h.addBinding s name kind, h.size⟩

theorem declareIn (hφ : Function.Injective φ) (s : ScopeId) (d : Name × BindingKind) :
    Tracks φ (g.declareIn s d) (g'.declareIn s (Tree.relocateDeclared φ d)) := by
  obtain ⟨ident, kind⟩ := d
  cases ident with
  | nameHole _ => exact h
  | ident name id =>
    obtain ⟨hbound, heq⟩ := h.bound s name kind
    cases id with
    | none => exact hbound
    | some id =>
      show Tracks φ ((g.bound s name kind).1.addDeclaration (g.bound s name kind).2 id)
        ((g'.bound s name kind).1.addDeclaration (g'.bound s name kind).2 (φ id))
      rw [heq]
      exact hbound.addDeclaration hφ _ id

theorem referIn (hφ : Function.Injective φ) (s : ScopeId) (ident : Name) :
    Tracks φ (g.referIn s ident) (g'.referIn s (ident.relocate φ)) := by
  cases ident with
  | nameHole _ => exact h
  | ident name id =>
    show Tracks φ (g.referIn s (.ident name id)) (g'.referIn s (.ident name (id.map φ)))
    simp only [ScopeGraph.referIn, h.lookup]
    cases g.lookup s name with
    | none => exact h.insertGlobal name
    | some b =>
      cases id with
      | none => exact h
      | some id => exact h.addReference hφ b { id, scope := s }

end Tracks

end ScopeGraph

/-! ## Applying renames -/

namespace ScopeGraph

theorem expandBinder_relocate (φ : Nat → Nat) (key : String) (t : Tree .binderProp) :
    expandBinder key (t.relocate φ) = (expandBinder key t).relocate φ := by
  cases t with
  | shortBinder ident value => cases value <;> rfl
  | _ => rfl

namespace Tracks

variable {g g' : ScopeGraph} (h : Tracks φ g g')

include h

theorem renamedBinding? (ident : Name) :
    g'.renamedBinding? (ident.relocate φ) = (g.renamedBinding? ident).map (Binding.relocate φ) := by
  unfold ScopeGraph.renamedBinding?
  rw [Tree.nameId?_relocate]
  cases ident.nameId? with
  | none => rfl
  | some i =>
    simp only [Option.map_some, Option.bind_eq_bind, Option.bind_some, h.bindingAt]
    cases g.bindingAt i with
    | none => rfl
    | some b =>
      simp only [Option.bind_some, h.getElem?]
      cases g.bindings[b]? with
      | none => rfl
      | some x =>
        show (if x.isRenamed then some (x.relocate φ) else none) = _
        cases hx : x.isRenamed <;> simp only [Option.bind_some, hx] <;> rfl

theorem renameName (ident : Name) : g'.renameName (ident.relocate φ) = (g.renameName ident).relocate φ := by
  cases ident with
  | nameHole _ => rfl
  | ident text id =>
    have hbinding := h.renamedBinding? (.ident text id)
    show Tree.ident ((g'.renamedBinding? ((Tree.ident text id).relocate φ)).elim text (·.name)) (id.map φ) = _
    rw [hbinding]
    cases hb : g.renamedBinding? (.ident text id) <;> simp only [ScopeGraph.renameName, hb] <;> rfl

/-- Renames at other positions give the renamed tree at other positions. -/
theorem renamed {c : Category} (t : Tree c) : g'.renamed (t.relocate φ) = (g.renamed t).relocate φ := by
  induction t using Tree.induction_on_parts with
  | step c t ih =>
    have hdescend : (t.relocate φ).descend g'.renameStep = (t.descend g.renameStep).relocate φ :=
      Tree.Transport.id.descend t fun p hp => ih p (Tree.mem_parts_of_visited hp)
    cases t with
    | ident text id => exact h.renameName (.ident text id)
    | nameHole i => rfl
    | shorthand ident =>
      show g'.renamed (.shorthand (ident.relocate φ)) = _
      rw [renamed_shorthand, renamed_shorthand, h.renamedBinding?, h.renameName]
      cases g.renamedBinding? ident <;> rfl
    | shortBinder ident value =>
      have hvalue := ih ⟨_, value⟩ (List.mem_cons_of_mem _ List.mem_cons_self)
      show g'.renamed (.shortBinder (ident.relocate φ) (value.relocate φ)) = _
      rw [renamed_shortBinder, renamed_shortBinder, h.renamedBinding?, h.renameName, hvalue]
      cases g.renamedBinding? ident with
      | none => rfl
      | some b =>
        exact expandBinder_relocate φ b.declaredName (.shortBinder (g.renameName ident) (g.renamed value))
    | _ => exact hdescend

end Tracks

end ScopeGraph

/-! ## Steps of the analysis -/

namespace Scope

/-- Two analyses stand at the same point, the one at other positions. -/
structure State.Tracks (φ : Nat → Nat) (s s' : State) : Prop where
  graph : s.graph.Tracks φ s'.graph
  current : s'.current = s.current
  strict : s'.strict = s.strict
  hoisted : ∀ i, s'.hoisted.contains (φ i) = s.hoisted.contains i

namespace Analysis

/-- An analysis does at other positions what another one does. -/
def Tracks (φ : Nat → Nat) (a a' : Analysis Unit) : Prop :=
  ∀ s s', State.Tracks φ s s' → State.Tracks φ (after a s) (after a' s')

section

variable {a a' b b' : Analysis Unit}

theorem tracks_nothing : Tracks φ (pure ()) (pure ()) := fun _ _ h => h

theorem Tracks.seq (ha : Tracks φ a a') (hb : Tracks φ b b') : Tracks φ (do a; b) (do a'; b') :=
  fun s s' h => hb _ _ (ha s s' h)

theorem tracks_forM {α β : Type} {f : α → Analysis Unit} {f' : β → Analysis Unit} {k : α → β}
    {xs : List α} (h : ∀ x ∈ xs, Tracks φ (f x) (f' (k x))) : Tracks φ (xs.forM f) ((xs.map k).forM f') := by
  induction xs with
  | nil => exact tracks_nothing
  | cons x xs ih => exact (h x List.mem_cons_self).seq (ih fun y hy => h y (List.mem_cons_of_mem _ hy))

theorem Tracks.within (h : Tracks φ a a') (kind : ScopeKind) :
    Tracks φ (within kind a) (within kind a') := by
  intro s s' hs
  rw [after_within, after_within]
  have hopened := h { s with graph := s.graph.openScope kind (some s.current)
                             current := s.graph.scopes.size }
    { s' with graph := s'.graph.openScope kind (some s'.current), current := s'.graph.scopes.size }
    { graph := hs.current ▸ hs.graph.openScope kind _
      current := congrArg Array.size hs.graph.scopes
      strict := hs.strict
      hoisted := hs.hoisted }
  exact ⟨hopened.graph, hs.current, hopened.strict, hopened.hoisted⟩

theorem Tracks.withStrictness (h : Tracks φ a a') {strict strict' : Bool} (heq : strict' = strict) :
    Tracks φ (withStrictness strict a) (withStrictness strict' a') := by
  intro s s' hs
  rw [after_withStrictness, after_withStrictness]
  have hinner := h { s with strict } { s' with strict := strict' } ⟨hs.graph, hs.current, heq, hs.hoisted⟩
  exact ⟨hinner.graph, hinner.current, hs.strict, hinner.hoisted⟩

end

section

variable (hφ : Function.Injective φ)

include hφ

theorem tracks_declaring {s s' : State} (h : State.Tracks φ s s') (ds : List (Name × BindingKind)) :
    State.Tracks φ (s.declaring ds) (s'.declaring (ds.map (Tree.relocateDeclared φ))) := by
  induction ds generalizing s s' with
  | nil => exact h
  | cons d ds ih =>
    have hdeclared : State.Tracks φ { s with graph := s.graph.declareIn s.current d }
        { s' with graph := s'.graph.declareIn s'.current (Tree.relocateDeclared φ d) } :=
      ⟨h.current ▸ h.graph.declareIn hφ _ d, h.current, h.strict, h.hoisted⟩
    exact ih hdeclared

theorem tracks_declare (kind : BindingKind) (ident : Name) :
    Tracks φ (declare kind ident) (declare kind (ident.relocate φ)) := by
  intro s s' h
  rw [after_declare, after_declare]
  exact tracks_declaring hφ h [(ident, kind)]

theorem tracks_declareAll (kind : BindingKind) (ns : List Name) :
    Tracks φ (declareAll kind ns) (declareAll kind (ns.map (Tree.relocate φ))) :=
  tracks_forM fun n _ => tracks_declare hφ kind n

theorem tracks_reference (ident : Name) : Tracks φ (reference ident) (reference (ident.relocate φ)) := by
  intro s s' h
  rw [after_reference, after_reference]
  exact ⟨h.current ▸ h.graph.referIn hφ _ ident, h.current, h.strict, h.hoisted⟩

theorem tracks_declareLexical {c : Category} (t : Tree c) :
    Tracks φ (declareLexical t) (declareLexical (t.relocate φ)) := by
  intro s s' h
  have hskipped : skipped s'.hoisted ∘ Tree.relocateDeclared φ = skipped s.hoisted := by
    funext d
    simp only [skipped, Function.comp_apply, Tree.relocateDeclared, Tree.nameId?_relocate]
    cases d.1.nameId? with
    | none => rfl
    | some i => exact congrArg (d.2 = .function && ·) (h.hoisted i)
  rw [after_declareLexical, after_declareLexical, Tree.lexicalNames_relocate, List.filter_map]
  have hfilter : (fun d => !skipped s'.hoisted d) ∘ Tree.relocateDeclared φ =
      fun d => !skipped s.hoisted d := by
    rw [← hskipped]
    rfl
  rw [hfilter]
  exact tracks_declaring hφ h _

theorem tracks_hoistBlockFunction (ident : Name) :
    Tracks φ (hoistBlockFunction ident) (hoistBlockFunction (ident.relocate φ)) := by
  intro s s' h
  cases ident with
  | nameHole _ => exact h
  | ident name id =>
    have hblocked : isBlocked s' name = isBlocked s name := by
      unfold isBlocked
      rw [h.current, h.graph.scopes]
      congr 2
      funext scope
      congr 2
      funext b
      rw [h.graph.getElem?]
      cases s.graph.bindings[b]? <;> rfl
    show State.Tracks φ (after (hoistBlockFunction (.ident name id)) s)
      (after (hoistBlockFunction (.ident name (id.map φ))) s')
    cases hb : isBlocked s name with
    | true =>
      have hstays : ∀ {s : State} {id : Option Nat}, isBlocked s name = true →
          after (hoistBlockFunction (.ident name id)) s = s := by
        intro s id hb
        show after (if isBlocked s name then pure () else _) s = s
        rw [hb]
        rfl
      rw [hstays hb, hstays (hblocked.trans hb)]
      exact h
    | false =>
      rw [after_hoistBlockFunction hb, after_hoistBlockFunction (hblocked.trans hb)]
      have hdeclared := tracks_declaring hφ h [(.ident name id, .function)]
      refine ⟨hdeclared.graph, hdeclared.current, hdeclared.strict, fun i => ?_⟩
      rw [contains_insertId, contains_insertId, h.hoisted]
      cases id with
      | none => rfl
      | some j =>
        refine congrArg (s.hoisted.contains i || ·) (Bool.eq_iff_iff.mpr ?_)
        rw [Option.map_some, beq_iff_eq, beq_iff_eq, Option.some.injEq, Option.some.injEq, hφ.eq_iff]

theorem tracks_declareBody (body : Block) :
    Tracks φ (declareBody body) (declareBody (body.relocate φ)) := by
  unfold declareBody
  rw [Tree.hoistedVars_relocate, Tree.blockFunctions_relocate]
  refine (tracks_declareAll hφ .var _).seq ((tracks_declareLexical hφ body).seq fun s s' h => ?_)
  show State.Tracks φ (after (if !s.strict then _ else pure ()) s)
    (after (if !s'.strict then _ else pure ()) s')
  rw [h.strict]
  split
  · exact tracks_forM (fun n _ => tracks_hoistBlockFunction hφ n) s s' h
  · exact h

/-! ## Scopes -/

variable {inner inner' : Analysis Unit} (h : Tracks φ inner inner')

include h

theorem tracks_inFunction (params : Tree (.list .binder)) (body : Block) :
    Tracks φ (inFunction params body inner) (inFunction (params.relocate φ) (body.relocate φ) inner') := by
  intro s s' hs
  have hinner : Tracks φ (do declareAll .param params.boundNames; declareBody body; inner)
      (do declareAll .param (params.relocate φ).boundNames; declareBody (body.relocate φ); inner') := by
    rw [Tree.boundNames_relocate]
    exact (tracks_declareAll hφ .param _).seq ((tracks_declareBody hφ body).seq h)
  have hstrict : (s'.strict || (body.relocate φ).isStrict) = (s.strict || body.isStrict) := by
    rw [hs.strict, Tree.isStrict_relocate]
  exact hinner.withStrictness hstrict s s' hs

theorem tracks_function (params : Tree (.list .binder)) (body : Block) :
    Tracks φ (within .function (inFunction params body inner))
      (within .function (inFunction (params.relocate φ) (body.relocate φ) inner')) :=
  (tracks_inFunction hφ h params body).within .function

theorem tracks_inBlock (body : Block) :
    Tracks φ (inBlock body inner) (inBlock (body.relocate φ) inner') :=
  ((tracks_declareLexical hφ body).seq h).within .block

theorem tracks_inClass (name : Option Name) :
    Tracks φ (inClass name inner) (inClass (name.map (Tree.relocate φ)) inner') := by
  unfold inClass
  rw [Option.toList_map]
  refine (Tracks.seq ?_ h).withStrictness rfl |>.within .classBody
  exact tracks_forM fun n _ => tracks_declare hφ .classDef n

theorem tracks_loop {c : Category} (head : Tree c) :
    Tracks φ (within .loopHead do declareLexical head; inner)
      (within .loopHead do declareLexical (head.relocate φ); inner') :=
  ((tracks_declareLexical hφ head).seq h).within .loopHead

end

/-! ## Every phrase -/

/-- Walking a phrase at other positions tracks walking it. -/
def Tracked (φ : Nat → Nat) {c : Category} (t : Tree c) : Prop :=
  Tracks φ (resolve t) (resolve (t.relocate φ))

/-- Functions, classes and identifiers. -/
theorem tracked_of_quiet (hφ : Function.Injective φ) {c : Category} {t : Tree c} (hquiet : c.quiet = true)
    (hplain : t.plain = false) (ih : ∀ p ∈ t.parts, Tracked φ p.2)
    (hinner : ∀ p ∈ t.parts, ∀ q ∈ p.2.parts, Tracked φ q.2) : Tracked φ t := by
  replace ih : Tree.Each (fun _ t => Tracked φ t) t.parts := .of_forall ih
  cases t with
  | identExpr name => exact tracks_reference hφ name
  | shorthand name => exact tracks_reference hφ name
  | functionExpr fn =>
    have hname : Tracks φ (fn.definedName.toList.forM (declare .function))
        ((fn.relocate φ).definedName.toList.forM (declare .function)) := by
      rw [Tree.toList_definedName_relocate]
      exact tracks_forM fun n _ => tracks_declare hφ .function n
    exact (hname.seq ih.1).within .function
  | arrow isAsync params inner =>
    have harrow := tracks_function hφ (ih.1.seq ih.2.1) params inner.arrowBlock
    rw [← Tree.arrowBlock_relocate] at harrow
    exact harrow
  | classExpr definition =>
    cases definition with
    | classDef name heritage members =>
      have hparts : Tree.Each (fun _ t => Tracked φ t) (Tree.classDef name heritage members).parts :=
        .of_forall (hinner _ List.mem_cons_self)
      have hclass := tracks_inClass hφ hparts.2.2.1 name.toOption
      rw [← Tree.toOption_relocate] at hclass
      exact hparts.2.1.seq hclass
  | methodProp kind key fn => exact ih.1.seq (ih.2.1.within .function)
  | method kind isStatic key fn => exact ih.1.seq (ih.2.1.within .function)
  | function isAsync isGenerator name params body =>
    exact tracks_inFunction hφ (ih.2.1.seq ih.2.2.1) params body
  | exprBody value => exact ih.1
  | blockBody body => exact ih.1
  | staticBlock inner => exact tracks_function hφ ih.1 .nil inner
  | classDef name heritage members => exact tracks_nothing
  | _ => first | exact absurd hquiet Bool.false_ne_true | exact absurd hplain Bool.noConfusion

/-- Statements that open scopes. -/
theorem tracked_of_statement (hφ : Function.Injective φ) {c : Category} {t : Tree c}
    (hquiet : c.quiet = false) (hplain : t.plain = false) (ih : ∀ p ∈ t.parts, Tracked φ p.2)
    (hinner : ∀ p ∈ t.parts, ∀ q ∈ p.2.parts, Tracked φ q.2) : Tracked φ t := by
  replace ih : Tree.Each (fun _ t => Tracked φ t) t.parts := .of_forall ih
  cases t with
  | functionStmt fn => exact ih.1.within .function
  | classStmt definition =>
    cases definition with
    | classDef name heritage members =>
      have hparts : Tree.Each (fun _ t => Tracked φ t) (Tree.classDef name heritage members).parts :=
        .of_forall (hinner _ List.mem_cons_self)
      exact hparts.2.1.seq (tracks_inClass hφ hparts.2.2.1 none)
  | blockStmt inner => exact tracks_inBlock hφ ih.1 inner
  | forStmt init test step inner =>
    exact tracks_loop hφ (ih.1.seq (ih.2.1.seq (ih.2.2.1.seq ih.2.2.2.1))) init
  | forIn left right inner => exact tracks_loop hφ (ih.1.seq (ih.2.1.seq ih.2.2.1)) left
  | forOf isAwait left right inner => exact tracks_loop hφ (ih.1.seq (ih.2.1.seq ih.2.2.1)) left
  | switchStmt discriminant cases =>
    exact ih.1.seq (((tracks_declareLexical hφ cases).seq ih.2.1).within .block)
  | handler param inner =>
    have hparam : Tracks φ (declareAll .catchParam param.boundNames)
        (declareAll .catchParam (param.relocate φ).boundNames) := by
      rw [Tree.boundNames_relocate]
      exact tracks_declareAll hφ .catchParam _
    exact (hparam.seq (ih.1.seq (tracks_inBlock hφ ih.2.1 inner))).within .catchClause
  | tryStmt inner caught finalizer =>
    refine (tracks_inBlock hφ ih.1 inner).seq (ih.2.1.seq ?_)
    cases finalizer with
    | none => exact tracks_nothing
    | some last => exact tracks_inBlock hφ ih.2.2.1 last
  | _ => first | exact absurd hquiet Bool.noConfusion | exact absurd hplain Bool.noConfusion

/-- Every phrase is walked at other positions as it is. -/
theorem tracked_resolve (hφ : Function.Injective φ) {c : Category} (t : Tree c) : Tracked φ t := by
  induction t using Tree.induction_on_phrases with
  | step c t ih =>
    have hparts : ∀ p ∈ t.parts, Tracked φ p.2 := fun p hp => ih p hp p p.2.self_mem_phrases
    have hinner : ∀ p ∈ t.parts, ∀ q ∈ p.2.parts, Tracked φ q.2 := fun p hp q hq =>
      ih p hp q (Tree.mem_phrases_of_part hq q.2.self_mem_phrases)
    cases hplain : t.plain with
    | true =>
      rw [Tracked, resolve_of_plain hplain, resolve_of_plain (by rw [Tree.plain_relocate, hplain]),
        Tree.visited_relocate]
      exact tracks_forM (k := relocatePhrase φ) fun p hp => hparts p (Tree.mem_parts_of_visited hp)
    | false =>
      cases hquiet : c.quiet with
      | true => exact tracked_of_quiet hφ hquiet hplain hparts hinner
      | false => exact tracked_of_statement hφ hquiet hplain hparts hinner

end Analysis

end Scope

/-! ## Programs -/

/-- A program at other positions. -/
def Program.relocate (φ : Nat → Nat) (p : Program) : Program := ⟨p.body.relocate φ⟩

open Scope Scope.Analysis in
/-- The graph of a program at other positions. -/
theorem Program.tracks_scopeGraph (hφ : Function.Injective φ) (p : Program) :
    p.scopeGraph.Tracks φ (p.relocate φ).scopeGraph := by
  have hrun : Tracks φ (do declareBody p.body; resolve p.body)
      (do declareBody (p.body.relocate φ); resolve (p.body.relocate φ)) :=
    (tracks_declareBody hφ p.body).seq (tracked_resolve hφ p.body)
  refine (hrun { strict := p.body.isStrict } { strict := (p.body.relocate φ).isStrict } ?_).graph
  have hempty : ScopeGraph.empty.Tracks φ .empty := by
    exact ⟨rfl, Array.map_empty.symm, fun i => rfl, rfl⟩
  exact ⟨hempty, rfl, Tree.isStrict_relocate φ p.body, fun i => rfl⟩

end Unminify
