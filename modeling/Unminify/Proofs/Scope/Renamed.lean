import Unminify.Proofs.Scope.Relabel
import Unminify.Proofs.Syntax.Sameness

/-!
# Renamed trees

What renames make of a tree, and that its outline is the outline of the tree under the new names
(`outline_renamed`). Shorthand properties and patterns are the forms that change: the key stays behind
and the identifier moves into the value, where it is declared or referred to as before.
-/

namespace Unminify

namespace Tree

/-- Whether a statement is a comment. -/
def isComment : Stmt → Bool
  | .comment _ => true
  | _ => false

/-- The text of a directive. -/
def directive? : Stmt → Option String
  | .exprStmt (.literal (.string text)) => Option.some text
  | _ => Option.none

theorem isStrict_eq (b : Block) : b.isStrict =
    (((b.statements.filter (!·.isComment)).map directive?).takeWhile (·.isSome)).contains
      (Option.some "use strict") := rfl

end Tree

namespace ScopeGraph

/-! ## Renaming without counting -/

/-- A shorthand pattern written out: the key, and the identifier as the value. -/
def expandBinder (key : String) : Tree .binderProp → Tree .binderProp
  | .shortBinder ident (.some value) =>
    .keyedBinder (.nameKey key) (.defaultBinder (.nameBinder ident) value)
  | .shortBinder ident .none => .keyedBinder (.nameKey key) (.nameBinder ident)
  | other => other

/-- What renaming does at a phrase, when nothing is counted. -/
def renameStep (g : ScopeGraph) : Tree.Hook Id := fun c t walk =>
  match c, t with
  | .name, ident => g.renameName ident
  | .property, .shorthand ident =>
    match g.renamedBinding? ident with
    | some b => Tree.keyed (.nameKey b.declaredName) (.identExpr (g.renameName ident))
    | none => walk ()
  | .binderProp, .shortBinder ident _ =>
    match g.renamedBinding? ident with
    | some b => expandBinder b.declaredName (walk ())
    | none => walk ()
  | _, _ => walk ()

/-- A phrase in which every identifier has the name of its binding now. -/
def renamed (g : ScopeGraph) {c : Category} (t : Tree c) : Tree c := t.visit g.renameStep

section

variable {g : ScopeGraph}

theorem fst_renameIdent (ident : Name) (n : Nat) :
    ((g.renameIdent ident).run n).1 = g.renameName ident := by
  cases ident with
  | nameHole _ => rfl
  | ident text id =>
    cases h : g.renamedBinding? (.ident text id) with
    | none =>
      simp only [renameIdent, renameName, h]
      rfl
    | some b =>
      simp only [renameIdent, renameName, h]
      split
      next heq => exact congrArg (Tree.ident · id) heq
      next => rfl

/-- Two walks whose hooks give the same results, one of them counting. -/
theorem fst_walkAll {c : Category} {f : (c : Category) → Tree c → StateM Nat (Tree c)}
    {k : (c : Category) → Tree c → Tree c} {ps : List Phrase} {build : List Phrase → Tree c}
    (h : ∀ p ∈ ps, ∀ n, ((f p.1 p.2).run n).1 = k p.1 p.2) (n : Nat) :
    ((Tree.walkAll f ps build).run n).1 = Tree.walkAll (m := Id) k ps build := by
  induction ps generalizing build n with
  | nil => rfl
  | cons p ps ih =>
    have hp := h p List.mem_cons_self n
    show ((Tree.walkAll f ps fun us => build (⟨p.1, ((f p.1 p.2).run n).1⟩ :: us)).run
      ((f p.1 p.2).run n).2).1 = _
    rw [hp]
    exact ih (fun q hq => h q (List.mem_cons_of_mem _ hq)) ((f p.1 p.2).run n).2

theorem fst_renameHook {c : Category} (t : Tree c) {walk : Unit → StateM Nat (Tree c)}
    {walk' : Unit → Tree c} (h : ∀ n, ((walk ()).run n).1 = walk' ()) (n : Nat) :
    ((g.renameHook c t walk).run n).1 = g.renameStep c t walk' := by
  cases t with
  | shorthand ident =>
    simp only [renameHook, renameStep]
    cases g.renamedBinding? ident with
    | none => exact h n
    | some b => exact congrArg (fun n => Tree.keyed _ (.identExpr n)) (fst_renameIdent ident n)
  | shortBinder ident value =>
    simp only [renameHook, renameStep]
    cases g.renamedBinding? ident with
    | none => exact h n
    | some b =>
      rw [← h n]
      show ((match ((walk ()).run n).1 with
        | .shortBinder ident (.some value) => pure (.keyedBinder (.nameKey b.declaredName)
            (.defaultBinder (.nameBinder ident) value))
        | .shortBinder ident .none => pure (.keyedBinder (.nameKey b.declaredName) (.nameBinder ident))
        | other => pure other : StateM Nat (Tree .binderProp)) ((walk ()).run n).2).1 =
          expandBinder b.declaredName ((walk ()).run n).1
      cases ((walk ()).run n).1 with
      | shortBinder ident value => cases value <;> rfl
      | keyedBinder key value => rfl
      | restProp target => rfl
  | ident text id => exact fst_renameIdent _ n
  | nameHole i => exact fst_renameIdent _ n
  | _ => exact h n

/-- Applying renames gives the renamed tree. -/
theorem fst_applyRenames {c : Category} (t : Tree c) : (g.applyRenames t).1 = g.renamed t := by
  suffices h : ∀ n, ((t.visit g.renameHook).run n).1 = g.renamed t from h 0
  induction t using Tree.induction_on_parts with
  | step c t ih =>
    refine fst_renameHook t fun n => ?_
    rw [Tree.descend_eq, Tree.descend_eq]
    refine fst_walkAll (fun p hp => ih p ?_) n
    rw [Tree.parts_eq]
    exact List.mem_append_left _ hp

end

/-! ## Names of renamed trees -/

section

variable (g : ScopeGraph)

theorem append_eq_map {α β : Type} {f : α → β} {xs ys : List α} {xs' ys' : List β}
    (hx : xs' = xs.map f) (hy : ys' = ys.map f) : xs' ++ ys' = (xs ++ ys).map f := by
  rw [hx, hy, List.map_append]

variable {g} in
theorem map_pair {as : BindingKind} {ns ms : List Name} (h : ms = ns.map g.renameName) :
    ms.map (·, as) = (ns.map (·, as)).map g.renameDeclared := by
  rw [h, List.map_map, List.map_map]
  rfl

/-- A shorthand property is written out if its identifier has another name now. -/
theorem renamed_shorthand (ident : Name) :
    g.renamed (.shorthand ident) = (g.renamedBinding? ident).elim (.shorthand (g.renameName ident))
      fun b => .keyed (.nameKey b.declaredName) (.identExpr (g.renameName ident)) := by
  simp only [renamed, Tree.visit, renameStep]
  cases g.renamedBinding? ident <;> rfl

/-- So is a shorthand pattern. -/
theorem renamed_shortBinder (ident : Name) (value : Tree (.option .expr)) :
    g.renamed (.shortBinder ident value) =
      (g.renamedBinding? ident).elim (.shortBinder (g.renameName ident) (g.renamed value))
        fun b => expandBinder b.declaredName (.shortBinder (g.renameName ident) (g.renamed value)) := by
  simp only [renamed, Tree.visit, renameStep]
  cases g.renamedBinding? ident <;> rfl

theorem boundNames_expandBinder (key : String) (t : Tree .binderProp) :
    (expandBinder key t).boundNames = t.boundNames := by
  cases t with
  | shortBinder ident value => cases value <;> rfl
  | _ => rfl

theorem boundNames_renamed {c : Category} (t : Tree c) :
    (g.renamed t).boundNames = t.boundNames.map g.renameName := by
  induction t with
  | arrayBinder elements ih => exact ih
  | objectBinder properties ih => exact ih
  | defaultBinder target value ih _ => exact ih
  | restBinder target ih => exact ih
  | keyedBinder key value _ ih => exact ih
  | restProp target ih => exact ih
  | varDecl kind declarators ih => exact ih
  | declarator target init ih _ => exact ih
  | some value ih => exact ih
  | cons head tail ih ih' =>
    show (g.renamed head).boundNames ++ (g.renamed tail).boundNames = _
    rw [ih, ih']
    exact List.map_append.symm
  | shorthand ident _ =>
    rw [renamed_shorthand]
    cases g.renamedBinding? ident <;> rfl
  | shortBinder ident value _ _ =>
    rw [renamed_shortBinder]
    cases g.renamedBinding? ident with
    | none => rfl
    | some b => exact boundNames_expandBinder _ _
  | access computed _ _ _ _ _ => cases computed <;> rfl
  | _ => rfl

theorem hoistedVars_renamed {c : Category} (t : Tree c) :
    (g.renamed t).hoistedVars = t.hoistedVars.map g.renameName := by
  induction t with
  | varDecl kind declarators _ =>
    cases kind with
    | var => exact g.boundNames_renamed declarators
    | _ => rfl
  | declHead decl ih => exact ih
  | switchCase _ inner _ ih => exact ih
  | handler _ inner _ ih => exact ih
  | varStmt decl ih => exact ih
  | blockStmt inner ih => exact ih
  | ifStmt _ consequent alternate _ ih ih' => exact append_eq_map ih ih'
  | forStmt init _ _ inner ih _ _ ih' => exact append_eq_map ih ih'
  | forIn left _ inner ih _ ih' => exact append_eq_map ih ih'
  | forOf _ left _ inner ih _ ih' => exact append_eq_map ih ih'
  | whileStmt _ inner _ ih => exact ih
  | doWhile _ inner _ ih => exact ih
  | labeled _ inner ih => exact ih
  | switchStmt _ cases _ ih => exact ih
  | tryStmt inner caught finalizer ih ih' ih'' => exact append_eq_map (append_eq_map ih ih') ih''
  | sequence inner ih => exact ih
  | stmts items ih => exact ih
  | body stmt ih => exact ih
  | cons head tail ih ih' => exact append_eq_map ih ih'
  | some value ih => exact ih
  | shorthand ident _ =>
    rw [renamed_shorthand]
    cases g.renamedBinding? ident <;> rfl
  | shortBinder ident value _ _ =>
    rw [renamed_shortBinder]
    cases value <;> cases g.renamedBinding? ident <;> rfl
  | access computed _ _ _ _ _ => cases computed <;> rfl
  | _ => rfl

theorem definedName_renamed {c : Category} (t : Tree c) :
    (g.renamed t).definedName.toList = t.definedName.toList.map g.renameName := by
  cases t with
  | function isAsync isGenerator name params inner => cases name <;> rfl
  | classDef name heritage members => cases name <;> rfl
  | shorthand ident =>
    rw [renamed_shorthand]
    cases g.renamedBinding? ident <;> rfl
  | shortBinder ident value =>
    rw [renamed_shortBinder]
    cases value <;> cases g.renamedBinding? ident <;> rfl
  | access computed _ _ _ => cases computed <;> rfl
  | _ => rfl

theorem blockFunctions_renamed (nested : Bool) {c : Category} (t : Tree c) :
    (g.renamed t).blockFunctions nested = (t.blockFunctions nested).map g.renameName := by
  induction t generalizing nested with
  | functionStmt fn _ =>
    cases nested with
    | true => exact g.definedName_renamed fn
    | false => rfl
  | switchCase _ inner _ ih => exact ih true
  | handler _ inner _ ih => exact ih true
  | blockStmt inner ih => exact ih true
  | ifStmt _ consequent alternate _ ih ih' => exact append_eq_map (ih true) (ih' true)
  | forStmt _ _ _ inner _ _ _ ih => exact ih true
  | forIn _ _ inner _ _ ih => exact ih true
  | forOf _ _ _ inner _ _ ih => exact ih true
  | whileStmt _ inner _ ih => exact ih true
  | doWhile _ inner _ ih => exact ih true
  | labeled _ inner ih => exact ih true
  | switchStmt _ cases _ ih => exact ih true
  | tryStmt inner caught finalizer ih ih' ih'' =>
    exact append_eq_map (append_eq_map (ih true) (ih' true)) (ih'' true)
  | sequence inner ih => exact ih nested
  | stmts items ih => exact ih nested
  | body stmt ih => exact ih nested
  | cons head tail ih ih' => exact append_eq_map (ih nested) (ih' nested)
  | some value ih => exact ih nested
  | shorthand ident _ =>
    rw [renamed_shorthand]
    cases g.renamedBinding? ident <;> rfl
  | shortBinder ident value _ _ =>
    rw [renamed_shortBinder]
    cases value <;> cases g.renamedBinding? ident <;> rfl
  | access computed _ _ _ _ _ => cases computed <;> rfl
  | _ => rfl

theorem lexicalNames_renamed {c : Category} (t : Tree c) :
    (g.renamed t).lexicalNames = t.lexicalNames.map g.renameDeclared := by
  induction t with
  | varDecl kind declarators _ =>
    cases kind with
    | var => rfl
    | lexical => exact map_pair (g.boundNames_renamed declarators)
    | constant => exact map_pair (g.boundNames_renamed declarators)
  | declHead decl ih => exact ih
  | varStmt decl ih => exact ih
  | functionStmt fn _ => exact map_pair (g.definedName_renamed fn)
  | classStmt definition _ => exact map_pair (g.definedName_renamed definition)
  | switchCase _ inner _ ih => exact ih
  | sequence inner ih => exact ih
  | stmts items ih => exact ih
  | cons head tail ih ih' => exact append_eq_map ih ih'
  | some value ih => exact ih
  | shorthand ident _ =>
    rw [renamed_shorthand]
    cases g.renamedBinding? ident <;> rfl
  | shortBinder ident value _ _ =>
    rw [renamed_shortBinder]
    cases value <;> cases g.renamedBinding? ident <;> rfl
  | access computed _ _ _ _ _ => cases computed <;> rfl
  | _ => rfl

theorem toList_renamed {c : Category} :
    (t : Tree (.list c)) → (g.renamed t).toList = t.toList.map g.renamed
  | .nil => rfl
  | .cons head tail => congrArg (g.renamed head :: ·) (toList_renamed tail)

theorem isComment_renamed (s : Stmt) : (g.renamed s).isComment = s.isComment := by
  cases s <;> rfl

theorem directive?_renamed (s : Stmt) : (g.renamed s).directive? = s.directive? := by
  cases s with
  | exprStmt e =>
    cases e with
    | access computed _ _ _ => cases computed <;> rfl
    | _ => rfl
  | _ => rfl

/-- Renaming leaves directives as they are. -/
theorem isStrict_renamed (b : Block) : (g.renamed b).isStrict = b.isStrict := by
  cases b with
  | stmts items =>
    have hitems : (g.renamed (.stmts items)).statements = items.toList.map g.renamed :=
      g.toList_renamed items
    have hcomment : (fun s => !s.isComment) ∘ g.renamed (c := .stmt) = fun s => !s.isComment :=
      funext fun s => congrArg (!·) (g.isComment_renamed s)
    have hdirective : Tree.directive? ∘ g.renamed (c := .stmt) = Tree.directive? :=
      funext g.directive?_renamed
    rw [Tree.isStrict_eq, Tree.isStrict_eq, hitems, List.filter_map, List.map_map, hcomment, hdirective]
    rfl

theorem arrowBlock_renamed (t : Tree .arrowBody) :
    (g.renamed t).arrowBlock = g.renamed t.arrowBlock := by
  cases t <;> rfl

/-! ## Outlines of renamed trees -/

theorem nestedNames_renamed (st : Bool) {c : Category} (t : Tree c) :
    Tree.nestedNames st (g.renamed t) = (t.nestedNames st).map g.renameDeclared := by
  unfold Tree.nestedNames
  rw [lexicalNames_renamed]
  cases st with
  | true => rfl
  | false => exact List.filter_map

theorem hoistedNames_renamed (st : Bool) (b : Block) :
    Tree.hoistedNames st (g.renamed b) = (b.hoistedNames st).map g.renameName := by
  cases st with
  | true => rfl
  | false => exact g.blockFunctions_renamed false b

theorem functionNames_renamed (own : List Name) (params : Tree (.list .binder)) (b : Block) :
    Tree.functionNames (own.map g.renameName) (g.renamed params) (g.renamed b) =
      (Tree.functionNames own params b).map g.renameDeclared := by
  unfold Tree.functionNames
  rw [boundNames_renamed, hoistedVars_renamed, lexicalNames_renamed]
  simp only [List.map_append, List.map_map]
  rfl

end

end ScopeGraph

namespace Outline

variable (g : ScopeGraph)

theorem rename_append (o o' : Outline) : (o.append o').rename g = (o.rename g).append (o'.rename g) := by
  induction o with
  | nil => rfl
  | reference name rest ih => exact congrArg (reference _) ih
  | scope kind declared hoisted inner rest _ ih => exact congrArg (scope _ _ _ _) ih

theorem rename_join (os : List Outline) : (join os).rename g = join (os.map (rename g)) := by
  induction os with
  | nil => rfl
  | cons o os ih =>
    show (o.append (join os)).rename g = _
    rw [rename_append, ih]
    rfl

end Outline

namespace ScopeGraph

section

variable {g : ScopeGraph}

theorem functionScope_renamed {own own' : List Name} {st : Bool} {params : Tree (.list .binder)}
    {b : Block} {inner inner' : Outline} (hown : own' = own.map g.renameName)
    (h : inner' = inner.rename g) :
    Tree.functionScope own' st (g.renamed params) (g.renamed b) inner' =
      (Tree.functionScope own st params b inner).rename g := by
  unfold Tree.functionScope
  rw [hown, functionNames_renamed, hoistedNames_renamed, h]
  rfl

theorem nestedScope_renamed {kind : ScopeKind} {st : Bool} {c : Category} {t : Tree c}
    {inner inner' : Outline} (h : inner' = inner.rename g) :
    (g.renamed t).nestedScope kind st inner' = (t.nestedScope kind st inner).rename g := by
  unfold Tree.nestedScope
  rw [nestedNames_renamed, h]
  rfl

theorem namedScope_renamed {kind : ScopeKind} {as : BindingKind} {own : List Name}
    {inner inner' : Outline} (h : inner' = inner.rename g) :
    Tree.namedScope kind as (own.map g.renameName) inner' =
      (Tree.namedScope kind as own inner).rename g := by
  unfold Tree.namedScope
  rw [h, map_pair rfl]
  rfl

theorem finallyScope_renamed {st : Bool} {t : Tree (.option .block)} {inner inner' : Outline}
    (h : inner' = inner.rename g) :
    Tree.finallyScope st (g.renamed t) inner' = (t.finallyScope st inner).rename g := by
  cases t with
  | none => rfl
  | some last => exact nestedScope_renamed h

theorem join_renamed {os os' : List Outline} (h : os' = os.map (Outline.rename g)) :
    Outline.join os' = (Outline.join os).rename g := by
  rw [h, Outline.rename_join]

/-- Whether a phrase may be written out by renames. -/
def isShort : {c : Category} → Tree c → Bool
  | _, .shorthand _ => true
  | _, .shortBinder _ _ => true
  | _, _ => false

/-- Renaming a phrase renames its parts. -/
theorem visited_renamed {c : Category} {t : Tree c} (h : isShort t = false) :
    (g.renamed t).visited = t.visited.map fun p => ⟨p.1, g.renamed p.2⟩ := by
  cases t with
  | shorthand ident => cases h
  | shortBinder ident value => cases h
  | access computed _ _ _ => cases computed <;> rfl
  | _ => rfl

theorem plain_renamed {c : Category} {t : Tree c} (h : isShort t = false) :
    (g.renamed t).plain = t.plain := by
  cases t with
  | shorthand ident => cases h
  | shortBinder ident value => cases h
  | access computed _ _ _ => cases computed <;> rfl
  | _ => rfl

theorem outline_name (n : Name) (st : Bool) : n.outline st = .nil := by
  cases n <;> rfl

/-- The outline of a written-out pattern. -/
theorem outline_expandBinder (key : String) (ident : Name) (value : Tree (.option .expr)) (st : Bool) :
    (expandBinder key (.shortBinder ident value)).outline st =
      (Tree.shortBinder ident value).outline st := by
  cases ident <;> cases value <;> rfl

theorem outline_renamed_of_plain {c : Category} {t : Tree c} (hplain : t.plain = true) (st : Bool)
    (ih : ∀ p ∈ t.visited, (g.renamed p.2).outline st = (p.2.outline st).rename g) :
    (g.renamed t).outline st = (t.outline st).rename g := by
  cases hshort : isShort t with
  | false =>
    rw [Tree.outline_of_plain hplain, Tree.outline_of_plain ((plain_renamed hshort).trans hplain),
      visited_renamed hshort]
    refine join_renamed ?_
    rw [List.map_map, List.map_map]
    exact List.map_congr_left ih
  | true =>
    cases t with
    | shortBinder ident value =>
      have hvalue := ih ⟨_, value⟩ (List.mem_cons_of_mem _ List.mem_cons_self)
      have hout : (Tree.shortBinder (g.renameName ident) (g.renamed value)).outline st =
          ((Tree.shortBinder ident value).outline st).rename g := by
        refine join_renamed ?_
        rw [outline_name, hvalue, ← outline_name ident st]
        cases ident <;> rfl
      rw [renamed_shortBinder]
      cases g.renamedBinding? ident with
      | none => exact hout
      | some b => exact (outline_expandBinder _ _ _ st).trans hout
    | shorthand ident => cases hplain
    | _ => cases hshort

theorem join_cons {o o' : Outline} {os os' : List Outline} (h : o' = o.rename g)
    (hs : Outline.join os' = (Outline.join os).rename g) :
    Outline.join (o' :: os') = (Outline.join (o :: os)).rename g := by
  show o'.append (Outline.join os') = (o.append (Outline.join os)).rename g
  rw [Outline.rename_append, h, hs]

theorem join_nil : Outline.join [] = (Outline.join []).rename g := rfl

/-- Renaming a phrase renames its outline, whatever the mode of the code around it. -/
def Renames (g : ScopeGraph) {c : Category} (t : Tree c) : Prop :=
  ∀ st, (g.renamed t).outline st = (t.outline st).rename g

theorem toOption_renamed (name : Tree (.option .name)) :
    (g.renamed name).toOption.toList = name.toOption.toList.map g.renameName := by
  cases name <;> rfl

/-- The scope of a function and what is inside it. -/
theorem outline_function {own own' : List Name} {params : Tree (.list .binder)} {inner inner' : Block}
    {c : Category} {rest : Tree c} (hown : own' = own.map g.renameName)
    (hinner : inner' = g.renamed inner) (hparams : Renames g params) (hrest : Renames g rest)
    (st : Bool) :
    Tree.functionScope own' (st || inner'.isStrict) (g.renamed params) inner'
        (.join [(g.renamed params).outline (st || inner'.isStrict),
          (g.renamed rest).outline (st || inner'.isStrict)]) =
      (Tree.functionScope own (st || inner.isStrict) params inner
        (.join [params.outline (st || inner.isStrict), rest.outline (st || inner.isStrict)])).rename
          g := by
  subst hinner
  rw [isStrict_renamed]
  exact functionScope_renamed hown (join_cons (hparams _) (join_cons (hrest _) join_nil))

/-- The outline of a renamed tree is the outline of the tree under the new names. -/
theorem outline_renamed {c : Category} (t : Tree c) : Renames g t := by
  induction t using Tree.induction_on_phrases with
  | step c t ih =>
    intro st
    have hparts : Tree.Each (fun _ t => Renames g t) t.parts :=
      .of_forall fun p hp => ih p hp p p.2.self_mem_phrases
    have hdeep : ∀ {d : Category} {u : Tree d}, (⟨d, u⟩ : Phrase) ∈ t.parts →
        Tree.Each (fun _ t => Renames g t) u.parts := fun hu =>
      .of_forall fun q hq => ih _ hu q (Tree.mem_phrases_of_part hq q.2.self_mem_phrases)
    cases hplain : t.plain with
    | true =>
      refine outline_renamed_of_plain hplain st fun p hp => ?_
      exact hparts.of_mem p (Tree.parts_eq t ▸ List.mem_append_left _ hp) st
    | false =>
      cases t with
      | identExpr name => rfl
      | shorthand name =>
        rw [renamed_shorthand]
        cases g.renamedBinding? name <;> rfl
      | functionExpr fn =>
        have hfn := hdeep List.mem_cons_self
        cases fn with
        | function isAsync isGenerator name params inner =>
          exact outline_function (toOption_renamed name) rfl hfn.2.1 hfn.2.2.1 st
      | arrow isAsync params inner =>
        exact outline_function List.map_nil.symm (g.arrowBlock_renamed inner) hparts.1 hparts.2.1 st
      | classExpr definition =>
        have hdef := hdeep List.mem_cons_self
        cases definition with
        | classDef name heritage members =>
          refine join_cons (hdef.2.1 st) (join_cons ?_ join_nil)
          exact (congrArg (Tree.namedScope _ _ · _) (toOption_renamed name)).trans
            (namedScope_renamed (hdef.2.2.1 true))
      | methodProp kind key fn =>
        have hfn := hdeep (List.mem_cons_of_mem _ List.mem_cons_self)
        cases fn with
        | function isAsync isGenerator name params inner =>
          exact join_cons (hparts.1 st)
            (join_cons (outline_function List.map_nil.symm rfl hfn.2.1 hfn.2.2.1 st) join_nil)
      | method kind isStatic key fn =>
        have hfn := hdeep (List.mem_cons_of_mem _ List.mem_cons_self)
        cases fn with
        | function isAsync isGenerator name params inner =>
          exact join_cons (hparts.1 st)
            (join_cons (outline_function List.map_nil.symm rfl hfn.2.1 hfn.2.2.1 st) join_nil)
      | function isAsync isGenerator name params inner => rfl
      | classDef name heritage members => rfl
      | exprBody value => exact hparts.1 st
      | blockBody inner => exact hparts.1 st
      | staticBlock inner =>
        show Tree.functionScope [] (st || (g.renamed inner).isStrict) (g.renamed .nil) (g.renamed inner)
          (.join [(g.renamed inner).outline (st || (g.renamed inner).isStrict)]) = _
        rw [isStrict_renamed]
        exact functionScope_renamed List.map_nil.symm (join_cons (hparts.1 _) join_nil)
      | handler param inner =>
        refine (congrArg (Tree.namedScope _ _ · _) (g.boundNames_renamed param)).trans
          (namedScope_renamed ?_)
        exact join_cons (hparts.1 st) (join_cons (nestedScope_renamed (hparts.2.1 st)) join_nil)
      | functionStmt fn =>
        have hfn := hdeep List.mem_cons_self
        cases fn with
        | function isAsync isGenerator name params inner =>
          exact outline_function List.map_nil.symm rfl hfn.2.1 hfn.2.2.1 st
      | classStmt definition =>
        have hdef := hdeep List.mem_cons_self
        cases definition with
        | classDef name heritage members =>
          exact join_cons (hdef.2.1 st)
            (join_cons (congrArg (Tree.namedScope _ _ []) (hdef.2.2.1 true)) join_nil)
      | blockStmt inner => exact nestedScope_renamed (hparts.1 st)
      | forStmt init test step inner =>
        exact nestedScope_renamed (join_cons (hparts.1 st) (join_cons (hparts.2.1 st)
          (join_cons (hparts.2.2.1 st) (join_cons (hparts.2.2.2.1 st) join_nil))))
      | forIn left right inner =>
        exact nestedScope_renamed (join_cons (hparts.1 st) (join_cons (hparts.2.1 st)
          (join_cons (hparts.2.2.1 st) join_nil)))
      | forOf isAwait left right inner =>
        exact nestedScope_renamed (join_cons (hparts.1 st) (join_cons (hparts.2.1 st)
          (join_cons (hparts.2.2.1 st) join_nil)))
      | switchStmt discriminant cases =>
        exact join_cons (hparts.1 st) (join_cons (nestedScope_renamed (hparts.2.1 st)) join_nil)
      | tryStmt inner caught finalizer =>
        exact join_cons (nestedScope_renamed (hparts.1 st)) (join_cons (hparts.2.1 st)
          (join_cons (finallyScope_renamed (hparts.2.2.1 st)) join_nil))
      | _ => cases hplain

/-! ## What renames leave alone -/

theorem unvisited_renamed {c : Category} {t : Tree c} (h : isShort t = false) :
    (g.renamed t).unvisited = t.unvisited := by
  cases t with
  | shorthand ident => cases h
  | shortBinder ident value => cases h
  | access computed _ _ _ => cases computed <;> rfl
  | _ => rfl

section

variable {α : Type} {f : Phrase → Option α}
  (hquiet : ∀ {c : Category} (t : Tree c), c ≠ .name → c ≠ .stmt → t.hole? = none → f ⟨c, t⟩ = none)

include hquiet

/-- What is read off names, statements and holes is read off the parts of any other phrase. -/
theorem filterMap_of_quiet {c : Category} {t : Tree c} (hname : c ≠ .name) (hstmt : c ≠ .stmt)
    (ht : t.hole? = none) :
    t.phrases.filterMap f = t.parts.flatMap fun p => p.2.phrases.filterMap f := by
  rw [Tree.filterMap_phrases, hquiet t hname hstmt ht]
  rfl

theorem filterMap_expandBinder (key : String) (ident : Name) (value : Tree (.option .expr)) :
    (expandBinder key (.shortBinder ident value)).phrases.filterMap f =
      (Tree.shortBinder ident value).phrases.filterMap f := by
  have hshort : (Tree.shortBinder ident value).phrases.filterMap f =
      ident.phrases.filterMap f ++ (value.phrases.filterMap f ++ []) :=
    filterMap_of_quiet hquiet nofun nofun rfl
  have hkey : (Tree.nameKey key).phrases.filterMap f = [] := filterMap_of_quiet hquiet nofun nofun rfl
  have hname : (Tree.nameBinder ident).phrases.filterMap f = ident.phrases.filterMap f ++ [] :=
    filterMap_of_quiet hquiet nofun nofun rfl
  have hkeyed : ∀ target, (Tree.keyedBinder (.nameKey key) target).phrases.filterMap f =
      (Tree.nameKey key).phrases.filterMap f ++ (target.phrases.filterMap f ++ []) :=
    fun _ => filterMap_of_quiet hquiet nofun nofun rfl
  rw [hshort]
  cases value with
  | none =>
    have hnone : (Tree.none : Tree (.option .expr)).phrases.filterMap f = [] :=
      filterMap_of_quiet hquiet nofun nofun rfl
    rw [expandBinder, hkeyed, hkey, hname, hnone]
    simp only [List.append_nil, List.nil_append]
  | some value =>
    have hdefault : (Tree.defaultBinder (.nameBinder ident) value).phrases.filterMap f =
        (Tree.nameBinder ident).phrases.filterMap f ++ (value.phrases.filterMap f ++ []) :=
      filterMap_of_quiet hquiet nofun nofun rfl
    have hsome : (Tree.some value).phrases.filterMap f = value.phrases.filterMap f ++ [] :=
      filterMap_of_quiet hquiet nofun nofun rfl
    rw [expandBinder, hkeyed, hkey, hdefault, hname, hsome]
    simp only [List.append_nil, List.nil_append]

/-- What is read off the names, statements and holes of a tree, other than the texts of names, is not
changed by renames. -/
theorem filterMap_renamed
    (hform : ∀ {c : Category} (t : Tree c), isShort t = false → f ⟨c, g.renamed t⟩ = f ⟨c, t⟩)
    {c : Category} (t : Tree c) :
    (g.renamed t).phrases.filterMap f = t.phrases.filterMap f := by
  induction t using Tree.induction_on_parts with
  | step c t ih =>
    cases hshort : isShort t with
    | false =>
      rw [Tree.filterMap_phrases, Tree.filterMap_phrases f t, hform t hshort, Tree.parts_eq,
        Tree.parts_eq t, visited_renamed hshort, unvisited_renamed hshort]
      simp only [List.flatMap_append, List.flatMap_map]
      congr 2
      rw [List.flatMap_def, List.flatMap_def]
      refine congrArg List.flatten (List.map_congr_left fun p hp => ih p ?_)
      rw [Tree.parts_eq]
      exact List.mem_append_left _ hp
    | true =>
      cases t with
      | shorthand ident =>
        have hname : (g.renameName ident).phrases.filterMap f = ident.phrases.filterMap f :=
          ih _ List.mem_cons_self
        have hident : (Tree.identExpr (g.renameName ident)).phrases.filterMap f =
            (g.renameName ident).phrases.filterMap f ++ [] := filterMap_of_quiet hquiet nofun nofun rfl
        have hkey : ∀ key, (Tree.nameKey key).phrases.filterMap f = [] :=
          fun _ => filterMap_of_quiet hquiet nofun nofun rfl
        have hkeyed : ∀ key,
            (Tree.keyed (.nameKey key) (.identExpr (g.renameName ident))).phrases.filterMap f =
              (Tree.nameKey key).phrases.filterMap f ++
                ((Tree.identExpr (g.renameName ident)).phrases.filterMap f ++ []) :=
          fun _ => filterMap_of_quiet hquiet nofun nofun rfl
        have hplain : ∀ n : Name, (Tree.shorthand n).phrases.filterMap f =
            n.phrases.filterMap f ++ [] := fun _ => filterMap_of_quiet hquiet nofun nofun rfl
        rw [renamed_shorthand, hplain]
        cases g.renamedBinding? ident with
        | none => exact (hplain _).trans (congrArg (· ++ []) hname)
        | some b =>
          refine (hkeyed b.declaredName).trans ?_
          rw [hkey, hident, hname, List.nil_append, List.append_nil]
      | shortBinder ident value =>
        have hname : (g.renameName ident).phrases.filterMap f = ident.phrases.filterMap f :=
          ih _ List.mem_cons_self
        have hvalue : (g.renamed value).phrases.filterMap f = value.phrases.filterMap f :=
          ih _ (List.mem_cons_of_mem _ List.mem_cons_self)
        have hplain : ∀ (n : Name) (v : Tree (.option .expr)),
            (Tree.shortBinder n v).phrases.filterMap f =
              n.phrases.filterMap f ++ (v.phrases.filterMap f ++ []) :=
          fun _ _ => filterMap_of_quiet hquiet nofun nofun rfl
        have hout : (Tree.shortBinder (g.renameName ident) (g.renamed value)).phrases.filterMap f =
            (Tree.shortBinder ident value).phrases.filterMap f := by rw [hplain, hplain, hname, hvalue]
        rw [renamed_shortBinder]
        cases g.renamedBinding? ident with
        | none => exact hout
        | some b => exact (filterMap_expandBinder hquiet _ _ _).trans hout
      | _ => cases hshort

end

/-- Renaming moves no identifier. -/
theorem positions_renamed {c : Category} (t : Tree c) : (g.renamed t).positions = t.positions := by
  refine filterMap_renamed (f := fun p => p.2.position?) (fun {c} t hc _ _ => ?_) (fun {c} t _ => ?_) t
  · cases c with
    | name => exact absurd rfl hc
    | _ => rfl
  · cases c with
    | name => exact congrArg some (g.nameId?_renameName t)
    | _ => rfl

theorem hole?_renamed {c : Category} {t : Tree c} (h : isShort t = false) :
    (g.renamed t).hole? = t.hole? := by
  cases t with
  | shorthand ident => cases h
  | shortBinder ident value => cases h
  | access computed _ _ _ => cases computed <;> rfl
  | _ => rfl

/-- Renaming leaves the holes of a tree alone. -/
theorem holes_renamed {c : Category} (t : Tree c) : (g.renamed t).holes = t.holes :=
  filterMap_renamed (f := fun p => p.2.hole?) (fun _ _ _ h => h) (fun _ h => hole?_renamed h) t

end

end ScopeGraph

end Unminify
