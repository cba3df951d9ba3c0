import Unminify.Proofs.Scope.Due
import Unminify.Proofs.Scope.Renamed

/-!
# Applied renames

What applying the renames of a graph makes of a tree. `Applied` says it form by form: an identifier
whose binding has a new name takes that name, a shorthand with such an identifier is written out under
the declared name, and any other phrase keeps its form, its own data and the parts that no walk visits,
while its visited parts are replaced by what comes of them.

`applyRenames_exact` is the result for every graph and every tree. The count is the number of
identifiers with another text, and applying the renames once more finds nothing to do. The proof leans
on `names_renamed`: the identifiers that a walk comes to afterwards are the ones that it came to
before, in the same order, each under its new name.
-/

namespace Unminify.ScopeGraph

/-! ## What is to be renamed -/

/-- The binding of an identifier, which has another name than it was declared with. -/
def Moves (g : ScopeGraph) (ident : Name) (b : Binding) : Prop :=
  ∃ i j, ident.nameId? = some i ∧ g.bindingAt i = some j ∧ g.bindings[j]? = some b ∧
    b.name ≠ b.declaredName

/-- The identifier that decides what renames do at a phrase itself. -/
def decisive? : {c : Category} → Tree c → Option Name
  | .name, ident => some ident
  | _, .shorthand ident => some ident
  | _, .shortBinder ident _ => some ident
  | _, _ => none

/-- What comes of a phrase when the renames of a graph are applied. -/
inductive Applied (g : ScopeGraph) : (c : Category) → Tree c → Tree c → Prop
  /-- An identifier follows its binding. -/
  | ident {text : String} {id : Option Nat} {b : Binding} (hmoves : g.Moves (.ident text id) b) :
    Applied g _ (.ident text id) (.ident b.name id)
  /-- The key of a shorthand property keeps the declared name. -/
  | shorthand {text : String} {id : Option Nat} {b : Binding} (hmoves : g.Moves (.ident text id) b) :
    Applied g _ (.shorthand (.ident text id))
      (.keyed (.nameKey b.declaredName) (.identExpr (.ident b.name id)))
  /-- So does the key of a shorthand in a pattern. -/
  | shortBinder {text : String} {id : Option Nat} {b : Binding} (hmoves : g.Moves (.ident text id) b) :
    Applied g _ (.shortBinder (.ident text id) .none)
      (.keyedBinder (.nameKey b.declaredName) (.nameBinder (.ident b.name id)))
  /-- The default of a shorthand in a pattern stays with the identifier. -/
  | defaulted {text : String} {id : Option Nat} {b : Binding} {value value' : Expr}
    (hmoves : g.Moves (.ident text id) b) (hvalue : Applied g _ value value') :
    Applied g _ (.shortBinder (.ident text id) (.some value))
      (.keyedBinder (.nameKey b.declaredName) (.defaultBinder (.nameBinder (.ident b.name id)) value'))
  /-- Any other phrase only has other parts. -/
  | parts {c : Category} {t : Tree c} {us : List Phrase}
    (hstays : ∀ ident b, decisive? t = some ident → ¬ g.Moves ident b)
    (hparts : Tree.Related (Applied g) t.visited us) : Applied g c t (t.rebuild us)

variable {g : ScopeGraph}

theorem renamedBinding?_eq_some {ident : Name} {b : Binding} :
    g.renamedBinding? ident = some b ↔ g.Moves ident b := by
  simp only [renamedBinding?, Moves, Option.bind_eq_bind, Option.bind_eq_some_iff]
  constructor
  · rintro ⟨i, hi, j, hj, b', hb, h⟩
    split at h
    · rename_i hrenamed
      cases h
      exact ⟨i, j, hi, hj, hb, bne_iff_ne.mp hrenamed⟩
    · cases h
  · rintro ⟨i, j, hi, hj, hb, hne⟩
    exact ⟨i, hi, j, hj, b, hb, if_pos (bne_iff_ne.mpr hne)⟩

theorem renamedBinding?_eq_none {ident : Name} :
    g.renamedBinding? ident = none ↔ ∀ b, ¬ g.Moves ident b := by
  rw [Option.eq_none_iff_forall_ne_some]
  exact forall_congr' fun b => not_congr renamedBinding?_eq_some

theorem renameName_of_moves {text : String} {id : Option Nat} {b : Binding}
    (h : g.Moves (.ident text id) b) : g.renameName (.ident text id) = .ident b.name id := by
  rw [renameName, renamedBinding?_eq_some.mpr h]
  rfl

theorem renameName_of_stays {ident : Name} (h : g.renamedBinding? ident = none) :
    g.renameName ident = ident := by
  cases ident with
  | ident text id =>
    rw [renameName, h]
    rfl
  | nameHole i => rfl

theorem Moves.eq_ident {ident : Name} {b : Binding} (h : g.Moves ident b) :
    ∃ text id, ident = .ident text id := by
  obtain ⟨i, j, hi, -⟩ := h
  cases ident with
  | ident text id => exact ⟨text, id, rfl⟩
  | nameHole k => cases hi

/-- Which binding an identifier stands for does not depend on its text. -/
theorem renamedBinding?_congr {ident ident' : Name} (h : ident.nameId? = ident'.nameId?) :
    g.renamedBinding? ident = g.renamedBinding? ident' := by
  rw [renamedBinding?, renamedBinding?, h]

theorem renamedBinding?_renameName (ident : Name) :
    g.renamedBinding? (g.renameName ident) = g.renamedBinding? ident :=
  renamedBinding?_congr (g.nameId?_renameName ident)

theorem renameName_renameName (ident : Name) :
    g.renameName (g.renameName ident) = g.renameName ident := by
  cases h : g.renamedBinding? ident with
  | none => rw [renameName_of_stays h, renameName_of_stays h]
  | some b =>
    have hmoves := renamedBinding?_eq_some.mp h
    obtain ⟨text, id, rfl⟩ := hmoves.eq_ident
    have hmoves' := renamedBinding?_eq_some.mp ((renamedBinding?_renameName _).trans h)
    rw [renameName_of_moves hmoves] at hmoves' ⊢
    exact renameName_of_moves hmoves'

/-! ## Form by form -/

theorem renamed_name (ident : Name) : g.renamed ident = g.renameName ident := by
  cases ident <;> rfl

/-- A walk that does nothing but replace parts rebuilds a phrase from what replaces them. -/
theorem walkAll_map {c : Category} {f : (c : Category) → Tree c → Tree c} {ps : List Phrase}
    (build : List Phrase → Tree c) :
    Tree.walkAll (m := Id) f ps build = build (ps.map fun p => ⟨p.1, f p.1 p.2⟩) := by
  induction ps generalizing build with
  | nil => rfl
  | cons p ps ih => exact ih fun us => build (⟨p.1, f p.1 p.2⟩ :: us)

/-- A phrase that renames do nothing at has its visited parts renamed. -/
theorem renamed_of_stays {c : Category} {t : Tree c}
    (h : ∀ ident, decisive? t = some ident → g.renamedBinding? ident = none) :
    g.renamed t = t.rebuild (t.visited.map fun p => ⟨p.1, g.renamed p.2⟩) := by
  have hstep : g.renameStep c t (fun _ => t.descend g.renameStep) = t.descend g.renameStep := by
    cases t with
    | ident text id => exact renameName_of_stays (h _ rfl)
    | nameHole i => rfl
    | shorthand ident => simp only [renameStep, h ident rfl]
    | shortBinder ident value => simp only [renameStep, h ident rfl]
    | _ => rfl
  show g.renameStep c t (fun _ => t.descend g.renameStep) = _
  rw [hstep, Tree.descend_eq]
  exact walkAll_map t.rebuild

theorem related_renamed {R : (c : Category) → Tree c → Tree c → Prop} {ps : List Phrase}
    (h : ∀ p ∈ ps, R p.1 p.2 (g.renamed p.2)) :
    Tree.Related R ps (ps.map fun p => ⟨p.1, g.renamed p.2⟩) := by
  induction ps with
  | nil => exact .nil
  | cons p ps ih =>
    exact .cons (h p List.mem_cons_self) (ih fun q hq => h q (List.mem_cons_of_mem p hq))

/-- A phrase is renamed as `Applied` says. -/
theorem applied_renamed {c : Category} (t : Tree c) : Applied g c t (g.renamed t) := by
  -- on all phrases inside: the default of a shorthand stands inside an optional part
  induction t using Tree.induction_on_phrases with
  | step c t ih =>
    have hstays : (∀ ident, decisive? t = some ident → g.renamedBinding? ident = none) →
        Applied g c t (g.renamed t) := by
      intro h
      rw [renamed_of_stays h]
      refine .parts (fun ident b hident => renamedBinding?_eq_none.mp (h ident hident) b) ?_
      exact related_renamed fun p hp => ih p (Tree.mem_parts_of_visited hp) _ p.2.self_mem_phrases
    cases hdecisive : decisive? t with
    | none => exact hstays fun _ h => nomatch hdecisive.symm.trans h
    | some ident =>
      cases hbinding : g.renamedBinding? ident with
      | none =>
        refine hstays fun ident' h => ?_
        obtain rfl := Option.some.inj (hdecisive.symm.trans h)
        exact hbinding
      | some b =>
        have hmoves := renamedBinding?_eq_some.mp hbinding
        obtain ⟨text, id, rfl⟩ := hmoves.eq_ident
        have hname := renameName_of_moves hmoves
        cases t with
        | ident text' id' =>
          cases hdecisive
          rw [renamed_name, hname]
          exact .ident hmoves
        | nameHole i => cases hdecisive
        | shorthand ident =>
          cases hdecisive
          rw [renamed_shorthand, hbinding, hname]
          exact .shorthand hmoves
        | shortBinder ident value =>
          cases hdecisive
          rw [renamed_shortBinder, hbinding, hname]
          cases value with
          | none => exact .shortBinder hmoves
          | some value =>
            exact .defaulted hmoves (ih ⟨_, .some value⟩ (List.mem_cons_of_mem _ List.mem_cons_self)
              ⟨_, value⟩ (Tree.mem_phrases_of_part List.mem_cons_self value.self_mem_phrases))
        | _ => cases hdecisive

/-! ## Identifiers, and how many change -/

theorem names_shortBinder (ident : Name) (value : Tree (.option .expr)) :
    (Tree.shortBinder ident value).names = ident :: value.names := by
  rw [Tree.names_two rfl rfl, Tree.names_name]
  rfl

theorem names_shorthand (ident : Name) : (Tree.shorthand ident).names = [ident] := by
  rw [Tree.names_one rfl rfl, Tree.names_name]

theorem names_keyed (key : String) (ident : Name) :
    (Tree.keyed (.nameKey key) (.identExpr ident)).names = [ident] := by
  rw [Tree.names_two rfl rfl, Tree.names_one (t := Tree.identExpr ident) rfl rfl, Tree.names_name]
  rfl

/-- Writing a shorthand pattern out leaves its identifiers where they are. -/
theorem names_expandBinder (key : String) (ident : Name) (value : Tree (.option .expr)) :
    (expandBinder key (.shortBinder ident value)).names = ident :: value.names := by
  have hname : (Tree.nameBinder ident).names = [ident] := by
    rw [Tree.names_one rfl rfl, Tree.names_name]
  have hkeyed : ∀ target : Tree .binder,
      (Tree.keyedBinder (.nameKey key) target).names = target.names := fun _ =>
    (Tree.names_two rfl rfl).trans (List.nil_append _)
  cases value with
  | none => exact (hkeyed _).trans hname
  | some value =>
    rw [expandBinder, hkeyed, Tree.names_two rfl rfl, hname, Tree.names_one (t := Tree.some value) rfl rfl]
    rfl

theorem name?_renamed {c : Category} (t : Tree c) :
    (g.renamed t).name? = t.name?.map g.renameName := by
  cases c with
  | name => exact congrArg some (renamed_name t)
  | _ => rfl

/-- The identifiers that a walk comes to are the same ones afterwards, under their new names. -/
theorem names_renamed {c : Category} (t : Tree c) :
    (g.renamed t).names = t.names.map g.renameName := by
  induction t using Tree.induction_on_parts with
  | step c t ih =>
    cases hshort : isShort t with
    | false =>
      have hparts : (g.renamed t).visited.flatMap (·.2.names) =
          (t.visited.flatMap (·.2.names)).map g.renameName := by
        rw [visited_renamed hshort, List.flatMap_map, List.map_flatMap]
        rw [List.flatMap_def, List.flatMap_def]
        exact congrArg List.flatten (List.map_congr_left fun p hp => ih p (Tree.mem_parts_of_visited hp))
      rw [Tree.names_eq, Tree.names_eq t, name?_renamed, hparts, List.map_append]
      cases t.name? <;> rfl
    | true =>
      cases t with
      | shorthand ident =>
        rw [renamed_shorthand, names_shorthand]
        cases g.renamedBinding? ident with
        | none => exact names_shorthand _
        | some b => exact names_keyed _ _
      | shortBinder ident value =>
        have hvalue := ih ⟨_, value⟩ (List.mem_cons_of_mem _ List.mem_cons_self)
        rw [renamed_shortBinder, names_shortBinder, List.map_cons, ← hvalue]
        cases g.renamedBinding? ident with
        | none => exact names_shortBinder _ _
        | some b => exact names_expandBinder _ _ _
      | _ => cases hshort

/-- How many identifiers of a tree get another text. -/
def changes (g : ScopeGraph) {c : Category} (t : Tree c) : Nat :=
  t.names.countP fun n => n.nameText? != (g.renameName n).nameText?

theorem snd_walkAll {c : Category} {f : (c : Category) → Tree c → StateM Nat (Tree c)}
    {w : Phrase → Nat} {ps : List Phrase} (build : List Phrase → Tree c)
    (h : ∀ p ∈ ps, ∀ n, ((f p.1 p.2).run n).2 = n + w p) (n : Nat) :
    ((Tree.walkAll f ps build).run n).2 = n + Tree.total w ps := by
  induction ps generalizing build n with
  | nil => rfl
  | cons p ps ih =>
    have hrest := ih (fun us => build (⟨p.1, ((f p.1 p.2).run n).1⟩ :: us))
      (fun q hq => h q (List.mem_cons_of_mem _ hq)) ((f p.1 p.2).run n).2
    refine hrest.trans ?_
    rw [h p List.mem_cons_self n, Nat.add_assoc]
    rfl

theorem changes_name (ident : Name) :
    g.changes ident = if ident.nameText? != (g.renameName ident).nameText? then 1 else 0 := by
  rw [changes, Tree.names_name, List.countP_singleton]

theorem snd_renameIdent (ident : Name) (n : Nat) :
    ((g.renameIdent ident).run n).2 = n + g.changes ident := by
  rw [changes_name]
  cases ident with
  | nameHole _ => rfl
  | ident text id =>
    cases h : g.renamedBinding? (.ident text id) with
    | none =>
      simp only [renameIdent, h, renameName_of_stays h, bne_self_eq_false]
      rfl
    | some b =>
      simp only [renameIdent, h, renameName_of_moves (renamedBinding?_eq_some.mp h)]
      by_cases hsame : text = b.name
      · rw [if_pos hsame, hsame, bne_self_eq_false]
        rfl
      · have hother : ((Tree.ident text id).nameText? != (Tree.ident b.name id).nameText?) = true :=
          bne_iff_ne.mpr fun heq => hsame (Option.some.inj heq)
        rw [if_neg hsame, if_pos hother]
        rfl

/-- Writing a shorthand pattern out after a walk counts nothing. -/
theorem snd_expanding (key : String) (x : StateM Nat (Tree .binderProp)) (n : Nat) :
    ((do
      match ← x with
      | .shortBinder ident (.some value) =>
        return .keyedBinder (.nameKey key) (.defaultBinder (.nameBinder ident) value)
      | .shortBinder ident .none => return .keyedBinder (.nameKey key) (.nameBinder ident)
      | other => return other : StateM Nat (Tree .binderProp)).run n).2 = (x.run n).2 := by
  rw [StateT.run_bind]
  generalize x.run n = result
  obtain ⟨t, n⟩ := result
  cases t with
  | shortBinder ident value => cases value <;> rfl
  | keyedBinder key value => rfl
  | restProp target => rfl

/-- The renames that are applied are counted. -/
theorem snd_applyRenames {c : Category} (t : Tree c) : (g.applyRenames t).2 = g.changes t := by
  suffices h : ∀ n, ((t.visit g.renameHook).run n).2 = n + g.changes t from
    (h 0).trans (Nat.zero_add _)
  induction t using Tree.induction_on_parts with
  | step c t ih =>
    have hwalk : t.name? = none → ∀ n, ((t.descend g.renameHook).run n).2 = n + g.changes t := by
      intro hname n
      rw [Tree.descend_eq, changes, Tree.countP_names hname]
      exact snd_walkAll _ (fun p hp => ih p (Tree.mem_parts_of_visited hp)) n
    intro n
    show ((g.renameHook c t fun _ => t.descend g.renameHook).run n).2 = _
    cases t with
    | ident text id => exact snd_renameIdent _ n
    | nameHole i => exact snd_renameIdent _ n
    | shorthand ident =>
      simp only [renameHook]
      cases g.renamedBinding? ident with
      | none => exact hwalk rfl n
      | some b => 
        have hchanges : g.changes (.shorthand ident) = g.changes ident := by
          rw [changes, changes, names_shorthand, Tree.names_name]
        rw [hchanges]
        exact snd_renameIdent ident n
    | shortBinder ident value =>
      simp only [renameHook]
      cases g.renamedBinding? ident with
      | none => exact hwalk rfl n
      | some b =>
        rw [← hwalk rfl n]
        exact snd_expanding _ _ n
    | _ => exact hwalk rfl n

theorem decisive?_rebuild {c : Category} {t : Tree c} (h : decisive? t = none) (us : List Phrase) :
    decisive? (t.rebuild us) = none := by
  cases t <;> first | exact h | cases h

theorem renamed_identExpr (ident : Name) :
    g.renamed (.identExpr ident) = .identExpr (g.renameName ident) := by
  cases ident <;> rfl

theorem renamed_keyed (key : String) (value : Expr) :
    g.renamed (.keyed (.nameKey key) value) = .keyed (.nameKey key) (g.renamed value) := rfl

theorem renamed_expandBinder (key : String) (ident : Name) (value : Tree (.option .expr)) :
    g.renamed (expandBinder key (.shortBinder ident value)) =
      expandBinder key (.shortBinder (g.renameName ident) (g.renamed value)) := by
  cases ident <;> cases value <;> rfl

/-- Renaming a renamed tree does nothing. -/
theorem renamed_renamed {c : Category} (t : Tree c) : g.renamed (g.renamed t) = g.renamed t := by
  induction t using Tree.induction_on_parts with
  | step c t ih =>
    cases hdecisive : decisive? t with
    | none =>
      -- the parts of the renamed phrase are renamed already
      rw [renamed_of_stays fun _ h => nomatch hdecisive.symm.trans h]
      generalize hus : (t.visited.map fun p => (⟨p.1, g.renamed p.2⟩ : Phrase)) = us
      have hvisited : (t.rebuild us).visited = us := Tree.visited_rebuild (by
        rw [← hus, List.map_map]
        rfl)
      have hfixed : (us.map fun p => (⟨p.1, g.renamed p.2⟩ : Phrase)) = us := by
        rw [← hus, List.map_map]
        exact List.map_congr_left fun p hp =>
          congrArg (Sigma.mk p.1) (ih p (Tree.mem_parts_of_visited hp))
      rw [renamed_of_stays fun _ h => (nomatch (decisive?_rebuild hdecisive us).symm.trans h), hvisited,
        hfixed]
      exact (congrArg _ hvisited).symm.trans (Tree.rebuild_visited _)
    | some decisive =>
      cases t with
      | ident text id =>
        rw [renamed_name, renamed_name, renameName_renameName]
      | nameHole i => rfl
      | shorthand ident =>
        rw [renamed_shorthand]
        cases hbinding : g.renamedBinding? ident with
        | none =>
          have hbinding' := (renamedBinding?_renameName ident).trans hbinding
          show g.renamed (.shorthand (g.renameName ident)) = .shorthand (g.renameName ident)
          rw [renamed_shorthand, hbinding', renameName_renameName]
          rfl
        | some b => 
          show g.renamed (.keyed (.nameKey b.declaredName) (.identExpr (g.renameName ident))) =
            .keyed (.nameKey b.declaredName) (.identExpr (g.renameName ident))
          rw [renamed_keyed, renamed_identExpr, renameName_renameName]
      | shortBinder ident value =>
        have hvalue := ih ⟨_, value⟩ (List.mem_cons_of_mem _ List.mem_cons_self)
        rw [renamed_shortBinder]
        cases hbinding : g.renamedBinding? ident with
        | none =>
          have hbinding' := (renamedBinding?_renameName ident).trans hbinding
          show g.renamed (.shortBinder (g.renameName ident) (g.renamed value)) =
            .shortBinder (g.renameName ident) (g.renamed value)
          rw [renamed_shortBinder, hbinding', renameName_renameName, hvalue]
          rfl
        | some b =>
          show g.renamed (expandBinder b.declaredName (.shortBinder (g.renameName ident) (g.renamed value))) =
            expandBinder b.declaredName (.shortBinder (g.renameName ident) (g.renamed value))
          rw [renamed_expandBinder, renameName_renameName, hvalue]
      | _ => cases hdecisive

/-- **Applying renames changes the identifiers of renamed bindings, and nothing else.** For every graph
and every tree: what comes of the tree is what `Applied` says; the identifiers that a walk comes to
keep their positions and their order; the count is the number of those with another text; and applying
the renames once more counts nothing and changes nothing. -/
theorem applyRenames_exact (g : ScopeGraph) {c : Category} (t : Tree c) :
    let u := (g.applyRenames t).1
    Applied g c t u ∧
      u.names.map Tree.nameId? = t.names.map Tree.nameId? ∧
      (g.applyRenames t).2 = (t.names.zip u.names).countP (fun p => p.1.nameText? != p.2.nameText?) ∧
      g.applyRenames u = (u, 0) := by
  intro u
  have hu : u = g.renamed t := fst_applyRenames t
  have hnames : u.names = t.names.map g.renameName := hu ▸ names_renamed t
  refine ⟨hu ▸ applied_renamed t, ?_, ?_, Prod.ext ?_ ?_⟩
  · rw [hnames, List.map_map]
    exact List.map_congr_left fun n _ => g.nameId?_renameName n
  · have hpairs : t.names.zip u.names = t.names.map fun n => (n, g.renameName n) := by
      rw [hnames]
      simpa only [List.map_id, id_eq] using List.zip_map' (f := id) (g := g.renameName) (l := t.names)
    rw [snd_applyRenames, hpairs, List.countP_map]
    rfl
  · rw [fst_applyRenames, hu, renamed_renamed]
  · rw [snd_applyRenames, changes, hnames, List.countP_map, List.countP_eq_zero]
    intro n _
    rw [Function.comp_apply, renameName_renameName, bne_self_eq_false]
    exact Bool.false_ne_true

end Unminify.ScopeGraph
