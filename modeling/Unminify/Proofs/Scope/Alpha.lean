import Unminify.Proofs.Scope.Renamed

/-!
# Renames are alpha-conversions

Bindings of a program are given other names, each of them free at the time, and the names are written
into the tree. The graph of the new tree is then the graph of the old one under the new names: every
identifier stands for what it stood for, and no name was captured (`Program.scopeGraph_renamed`).
-/

namespace Unminify

namespace ScopeGraph

/-- A graph and the same graph after renames. -/
structure Differs (g final : ScopeGraph) : Prop where
  scopes : final.scopes = g.scopes
  occurrences : final.occurrences = g.occurrences
  globals : final.globals = g.globals
  bindings : ∀ (b : BindingId) (x : Binding), g.bindings[b]? = some x →
    ∃ name, final.bindings[b]? = some { x with name }

theorem Differs.refl (g : ScopeGraph) : g.Differs g :=
  ⟨rfl, rfl, rfl, fun _ x hx => ⟨x.name, hx⟩⟩

theorem Differs.rename {g final : ScopeGraph} (h : g.Differs final) (b : BindingId) (name : String) :
    g.Differs (final.rename b name) where
  scopes := h.scopes
  occurrences := h.occurrences
  globals := h.globals
  bindings b' x hx := by
    obtain ⟨name', hx'⟩ := h.bindings b' x hx
    rw [getElem?_rename, hx']
    split
    · exact ⟨name, rfl⟩
    · exact ⟨name', rfl⟩

/-- Renames change names only. -/
theorem differs_renameAll (g : ScopeGraph) (rs : List (BindingId × String)) :
    g.Differs (g.renameAll rs) := by
  suffices h : ∀ final, g.Differs final → g.Differs (final.renameAll rs) from h g (.refl g)
  induction rs with
  | nil => exact fun _ h => h
  | cons r rs ih => exact fun final h => ih _ (h.rename r.1 r.2)

theorem Differs.grows {g final : ScopeGraph} (h : g.Differs final) (n : Nat) : g.Grows final n where
  scopes _ _ := by rw [h.scopes]
  bindings b x hx := by
    obtain ⟨name, hx'⟩ := h.bindings b x hx
    exact ⟨_, hx', rfl, fun _ hr => hr⟩
  globals name hname := by rwa [isGlobal, h.globals]

theorem sound_blank : Sound { scopes := #[] } where
  listed _ _ hb := (nomatch hb)
  distinct _ _ hb := (nomatch hb)
  resolved _ _ hx := (nomatch hx)
  taken _ _ hx := (nomatch hx)
  unrenamed _ _ hx := (nomatch hx)

end ScopeGraph

open ScopeGraph

namespace Program

/-- A program with the names that its bindings have now. -/
def renamed (p : Program) (g : ScopeGraph) : Program := { body := (g.applyRenames p.body).1 }

section

variable {p : Program}

/-- The outline of a program names no identifier twice. -/
theorem distinct_outline (hp : p.body.Positioned) :
    none ∉ p.outline.positions ∧ p.outline.positions.Nodup := by
  have hcount : ∀ i, p.outline.positions.count i ≤ p.body.positions.count i := by
    intro i
    have htop := (Tree.counted i p.body).top rfl p.body.isStrict
    have hnames : Tree.tally i p.outline.names = Tree.liftedTop i p.body.isStrict p.body +
        Tree.mentions i p.body p.body.isStrict := by
      simp only [outline, names, hoisted, inside, Scope.Analysis.bodyNames, Outline.names,
        Outline.allDeclared, List.map_append, List.map_map, Function.comp_def, List.map_id',
        Tree.tally_append, List.append_nil, Tree.liftedTop, Tree.hoistedNames, Tree.blockNames,
        Tree.mentions]
    exact Nat.le_trans (Nat.le_of_eq hnames) htop
  refine ⟨fun h => ?_, List.nodup_iff_count.mpr fun i => ?_⟩
  · have := Nat.lt_of_lt_of_le (List.count_pos_iff.mpr h) (hcount none)
    exact hp.placed (List.count_pos_iff.mp this)
  · exact Nat.le_trans (hcount i) (List.nodup_iff_count.mp hp.distinct i)

/-- Renaming a program renames its outline. -/
theorem outline_renamed (p : Program) (g : ScopeGraph) :
    (p.renamed g).outline = p.outline.rename g := by
  have hbody : (p.renamed g).body = g.renamed p.body := fst_applyRenames p.body
  have hstrict : (p.renamed g).body.isStrict = p.body.isStrict := by rw [hbody, isStrict_renamed]
  unfold outline names hoisted inside Scope.Analysis.bodyNames
  rw [hstrict, hbody, hoistedVars_renamed, lexicalNames_renamed, hoistedNames_renamed,
    ScopeGraph.outline_renamed, map_pair rfl, ← List.map_append]
  rfl

/-- The graph of a program is sound. -/
theorem sound_scopeGraph (hp : p.body.Positioned) (hclash : p.outline.NoClash) :
    p.scopeGraph.Sound := by
  rw [scopeGraph_eq_run hp hclash]
  exact p.inside.run_sound _ (sound_blank.enter .program none _)

/-- The graph of a program before anything is resolved in it. -/
def opening (p : Program) : ScopeGraph :=
  ScopeGraph.enter { scopes := #[] } .program none (Outline.allDeclared p.names p.hoisted)

/-- What the renamed graph of a program knows of the program's own scope and of what is inside. -/
theorem leads_renamed {final : ScopeGraph} (hp : p.body.Positioned)
    (hdiffers : (p.inside.run root p.opening).Differs final) :
    Knows final (ScopeGraph.openScope { scopes := #[] } .program none) root
        (Outline.allDeclared p.names p.hoisted) ∧
      p.inside.Leads root p.opening final := by
  obtain ⟨hnone, hnodup⟩ := distinct_outline hp
  obtain ⟨-, hinner, -, hdi, -⟩ := Outline.distinct_scope hnodup
  have hsound : p.opening.Sound := sound_blank.enter .program none _
  have hsize : p.opening.scopes.size = root + 1 := size_enter _ _ _ _
  have hplaces : ∀ i, final.bindingAt i = (p.inside.run root p.opening).bindingAt i := by
    intro i
    rw [bindingAt, hdiffers.occurrences]
    rfl
  have hgrows := p.inside.run_grows root hsound
  refine ⟨knows_of_grows ?_ fun i hi => ?_, hsound, ?_, hdiffers.grows _, fun hi => hnone ?_, hinner,
    fun i hi => ?_, fun i _ => hplaces i⟩
  · have hall := hgrows.trans (hdiffers.grows _) hgrows.size_le
    rw [hsize] at hall
    exact hall
  · exact (hplaces i).trans (p.inside.run_bindingAt root _ (hdi _ hi))
  · rw [hsize]
    exact Nat.lt_succ_self _
  · exact Outline.mem_positions_scope.mpr (.inr (.inl hi))
  · exact bindingAt_declareAll fun hi' => hdi _ hi' hi

/-- **Renames to free names are alpha-conversions.** Take a program whose identifiers have positions of
their own, and in which no block function of sloppy code has the name of a `let`, `const` or class of
the function around it. Give its bindings other names, one after the other, each of them free when its
turn comes, and write the names into the tree. The scope graph of the new tree is the scope graph of
the program, with the same scopes, bindings, positions and global names, except that every binding has
the name that it was given. -/
theorem scopeGraph_renamed {p : Program} (hp : p.body.Positioned) (hclash : p.outline.NoClash)
    {rs : List (BindingId × String)} (hfree : p.scopeGraph.AllFree rs) :
    (p.renamed (p.scopeGraph.renameAll rs)).scopeGraph =
      (p.scopeGraph.renameAll rs).relabel p.scopeGraph := by
  have hfinal := (sound_scopeGraph hp hclash).renameAll hfree
  have hdiffers := p.scopeGraph.differs_renameAll rs
  generalize p.scopeGraph.renameAll rs = final at hdiffers hfinal ⊢
  have hgraph : p.scopeGraph = p.inside.run root p.opening := scopeGraph_eq_run hp hclash
  rw [hgraph] at hdiffers ⊢
  obtain ⟨hknows, hleads⟩ := leads_renamed hp hdiffers
  obtain ⟨hnone, hnodup⟩ := distinct_outline hp
  obtain ⟨hdeclared, -⟩ := Outline.distinct_scope hnodup
  have hnone' : none ∉ declaredPositions (Outline.allDeclared p.names p.hoisted) :=
    fun hi => hnone (Outline.mem_positions_scope.mpr (.inl hi))
  obtain ⟨hrun, hinside⟩ := Outline.run_rename hfinal p.inside hleads
  -- the renamed program is as well-formed as the program
  have hbody : (p.renamed final).body = final.renamed p.body := fst_applyRenames p.body
  have hp' : (p.renamed final).body.Positioned := by
    rw [hbody]
    exact ⟨positions_renamed p.body ▸ hp.placed, positions_renamed p.body ▸ hp.distinct⟩
  have hout := p.outline_renamed final
  have hspec := hknows.spec (sound_blank.openScope .program none) (Nat.lt_succ_self 0)
    sound_blank.before hnone' hdeclared
  have hclash' : (p.renamed final).outline.NoClash := by
    rw [hout]
    exact ⟨Outline.noClash_declared hfinal hspec hclash.1, hinside hclash.2.1, trivial⟩
  -- both analyses go through the same graphs
  obtain ⟨-, hnames, hhoisted, hin, -⟩ := Outline.scope.inj hout
  have hopen := relabel_enter hfinal sound_blank hknows hnone' hdeclared
  rw [scopeGraph_eq_run hp' hclash', Outline.graph, hnames, hhoisted, hin,
    Outline.allDeclared_rename]
  exact (congrArg _ hopen).trans hrun

end

/-- `var h; ({ h }); { function f() {} }`, in which `h` and then `f` can be renamed. -/
def shorthandUse : Program where
  body := Tree.blockOf [
    .varStmt (.varDecl .var (.ofList [.declarator (.nameBinder (.ident "h" (some 4))) .none])),
    .exprStmt (.object (.ofList [.shorthand (.ident "h" (some 11))])),
    .blockStmt (Tree.blockOf [
      .functionStmt (.function false false (.some (.ident "f" (some 27))) .nil (Tree.blockOf []))])]

/-- The name that `h` gives up is free for `f` then. -/
theorem scopeGraph_renamed_shorthandUse :
    shorthandUse.scopeGraph.AllFree [(0, "k"), (1, "h")] ∧
      (shorthandUse.renamed (shorthandUse.scopeGraph.renameAll [(0, "k"), (1, "h")])).scopeGraph =
        (shorthandUse.scopeGraph.renameAll [(0, "k"), (1, "h")]).relabel shorthandUse.scopeGraph := by
  have hfree : shorthandUse.scopeGraph.AllFree [(0, "k"), (1, "h")] := by decide +kernel
  exact ⟨hfree, scopeGraph_renamed ⟨by decide, by decide⟩ (by decide) hfree⟩

end Program

end Unminify
