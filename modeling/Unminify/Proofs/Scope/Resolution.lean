import Unminify.Proofs.Scope.Alpha

/-!
# The resolution invariant

Analysis resolves an identifier in the middle of its walk, when the scopes that come later are not
there yet. That gives the same answer as the finished graph does, because a scope makes all its
declarations when it is entered, before anything in it is walked. `resolved_renameAll` says so of
every program, whether its identifiers have positions or not, and also after any number of renames to
names that are free at the time.

The two kinds of step are kept apart. A declaration needs a scope from which nothing was referred yet
(`Opens`); a walk needs only to stand in a scope (`Stands`). `within` leads from a walk to
declarations and back, and no walk leads to declarations in a scope that was entered before it.
-/

namespace Unminify

namespace ScopeGraph

/-- What every identifier of a resolved program can rely on. -/
structure Resolved (g : ScopeGraph) : Prop where
  /-- The bindings of one scope have different names. -/
  distinct : ∀ s, ((g.own s).map fun b => g.bindings[b]?.map Binding.name).Nodup
  /-- A reference finds its binding, from where it stands. -/
  references : ∀ (b : BindingId) (x : Binding), g.bindings[b]? = some x →
    ∀ r ∈ x.references, g.lookup r.scope x.name = some b
  /-- A binding is found in its own scope. -/
  declared : ∀ (b : BindingId) (x : Binding), g.bindings[b]? = some x →
    g.lookup x.scope x.name = some b
  /-- No global name was given to a binding. -/
  globals : ∀ (b : BindingId) (x : Binding), g.bindings[b]? = some x → x.name ≠ x.declaredName →
    g.isGlobal x.name = false

/-! ## Bindings are where they say -/

/-- Every binding is listed once, by the scope that it names as its own. -/
structure Housed (g : ScopeGraph) : Prop where
  here : ∀ (b : BindingId) (x : Binding), g.bindings[b]? = some x → b ∈ g.own x.scope
  once : ∀ s, (g.own s).Nodup

section

variable {g g' : ScopeGraph}

/-- Only bindings and the lists of scopes matter. -/
theorem Housed.congr (h : g.Housed) (hown : ∀ s, g'.own s = g.own s)
    (hbindings : ∀ (b : BindingId) (x' : Binding), g'.bindings[b]? = some x' →
      ∃ x, g.bindings[b]? = some x ∧ x.scope = x'.scope) : g'.Housed where
  here b x' hx' := by
    obtain ⟨x, hx, hscope⟩ := hbindings b x' hx'
    rw [hown, ← hscope]
    exact h.here b x hx
  once s := by
    rw [hown]
    exact h.once s

theorem Touched.housed {b : BindingId} {f : Binding → Binding} (ht : Touched g g' b f)
    (h : g.Housed) : g'.Housed := by
  refine h.congr ht.own fun b' x' hx' => ?_
  obtain ⟨x, hx, hkept, -⟩ := ht.getElem? hx'
  exact ⟨x, hx, hkept.scope.symm⟩

theorem Housed.rename (h : g.Housed) (b : BindingId) (name : String) : (g.rename b name).Housed := by
  refine h.congr (fun _ => rfl) fun b' x' hx' => ?_
  rw [getElem?_rename] at hx'
  split at hx'
  · obtain ⟨x, hx, rfl⟩ := Option.map_eq_some_iff.mp hx'
    exact ⟨x, hx, rfl⟩
  · exact ⟨x', hx', rfl⟩

theorem Housed.renameAll (h : g.Housed) (rs : List (BindingId × String)) :
    (g.renameAll rs).Housed := by
  induction rs generalizing g with
  | nil => exact h
  | cons r rs ih => exact ih (h.rename r.1 r.2)

theorem Housed.openScope (h : g.Housed) (kind : ScopeKind) (parent : Option ScopeId) :
    (g.openScope kind parent).Housed := by
  refine h.congr (fun s => ?_) fun b x hx => ⟨x, hx, rfl⟩
  rw [own, own, ScopeGraph.openScope, Array.getElem?_push]
  split
  next hs =>
    subst hs
    rw [Array.getElem?_eq_none (Nat.le_refl _)]
    rfl
  next => rfl

theorem own_addBinding_of_ne {s t : ScopeId} {name : String} {kind : BindingKind} (ht : t ≠ s) :
    (g.addBinding s name kind).own t = g.own t := by
  rw [own, scopes_addBinding ht, own]

theorem own_addBinding_self {s : ScopeId} {name : String} {kind : BindingKind}
    (hs : s < g.scopes.size) :
    (g.addBinding s name kind).own s = g.own s ++ [g.bindings.size] := by
  rw [own, own, addBinding, Array.getElem?_modify, if_pos rfl, Array.getElem?_eq_getElem hs]
  exact Array.toList_push

theorem Housed.addBinding (h : g.Housed) (hg : g.WellFormed) {s : ScopeId} (hs : s < g.scopes.size)
    (name : String) (kind : BindingKind) : (g.addBinding s name kind).Housed where
  here b x hx := by
    rw [getElem?_addBinding] at hx
    split at hx
    next hb =>
      cases hx
      exact mem_own_addBinding.mpr (.inr ⟨rfl, hs, hb⟩)
    next => exact mem_own_addBinding.mpr (.inl (h.here b x hx))
  once t := by
    by_cases ht : t = s
    · subst ht
      rw [own_addBinding_self hs, List.nodup_append]
      refine ⟨h.once t, List.pairwise_singleton _ _, fun b hb b' hb' => ?_⟩
      -- a listed binding has a smaller number than the new one
      obtain ⟨x, hx, -⟩ := hg.listed t b hb
      rw [List.mem_singleton.mp hb']
      exact Nat.ne_of_lt (Array.getElem?_eq_some_iff.mp hx).1
    · rw [own_addBinding_of_ne ht]
      exact h.once t

theorem Housed.declareIn (h : g.Housed) (hg : g.WellFormed) {s : ScopeId} (hs : s < g.scopes.size)
    (d : Name × BindingKind) : (g.declareIn s d).Housed := by
  have hbound : ∀ name kind, (g.bound s name kind).1.Housed := by
    intro name kind
    rw [bound]
    split
    · exact h
    · exact h.addBinding hg hs name kind
  unfold ScopeGraph.declareIn
  split
  · exact (touched_addDeclaration _ _ _).housed (hbound _ _)
  · exact hbound _ _
  · exact h

theorem Housed.referIn (h : g.Housed) (s : ScopeId) (ident : Name) : (g.referIn s ident).Housed := by
  unfold ScopeGraph.referIn
  split
  · split
    · exact (touched_addReference ‹_›).housed h
    · exact h
    · exact h.congr (fun _ => rfl) fun b x hx => ⟨x, hx, rfl⟩
  · exact h

/-- A binding of a well-formed graph is found in its own scope. -/
theorem WellFormed.lookup_own (hg : g.WellFormed) (h : g.Housed) {b : BindingId} {x : Binding}
    (hx : g.bindings[b]? = some x) : g.lookup x.scope x.name = some b := by
  have hb := h.here b x hx
  have hnamed : g.isNamed x.name b = true := isNamed_iff.mpr ⟨x, hx, rfl⟩
  have hfind : (g.own x.scope).find? (g.isNamed x.name) = some b :=
    find?_of_unique hb hnamed fun b' hb' hn => hg.distinct x.scope b' hb' b hb x.name hn hnamed
  rw [lookup_eq, visible, List.find?_append, hfind]
  rfl

/-- Well-formedness, said of names and lookups. -/
theorem WellFormed.resolved_of_housed (hg : g.WellFormed) (h : g.Housed) : g.Resolved where
  distinct s := by
    rw [List.Nodup, List.pairwise_map]
    refine (h.once s).imp_of_mem ?_
    intro b b' hb hb' hne heq
    obtain ⟨x, hx, -⟩ := hg.listed s b hb
    obtain ⟨x', hx', -⟩ := hg.listed s b' hb'
    simp only [hx, hx', Option.map_some, Option.some.injEq] at heq
    exact hne (hg.distinct s b hb b' hb' x.name (isNamed_iff.mpr ⟨x, hx, rfl⟩)
      (isNamed_iff.mpr ⟨x', hx', heq.symm⟩))
  references := hg.resolved
  declared b x hx := hg.lookup_own h hx
  globals b x hx hname := hg.taken b x hx (bne_iff_ne.mpr hname)

end

end ScopeGraph

/-! ## Steps of the analysis -/

namespace Scope

open ScopeGraph

/-- An analysis that stands in a scope of a sound graph. -/
structure Stands (s : State) : Prop where
  sound : s.graph.Sound
  housed : s.graph.Housed
  inside : s.current < s.graph.scopes.size

/-- An analysis that stands in a scope from which nothing was referred yet. -/
structure Opens (s : State) : Prop extends Stands s where
  fresh : s.graph.Before s.current

namespace Analysis

/-- An analysis that only declares names in the current scope. -/
def Declares (a : Analysis Unit) : Prop :=
  ∀ s, Opens s → Opens (after a s) ∧ (after a s).graph.scopes.size = s.graph.scopes.size

/-- An analysis that makes the declarations of a scope and then walks what is in it. -/
def Settles (a : Analysis Unit) : Prop :=
  ∀ s, Opens s → Stands (after a s) ∧ s.graph.scopes.size ≤ (after a s).graph.scopes.size

/-- An analysis that walks a phrase and comes back to the scope that it stands in. -/
def Walks (a : Analysis Unit) : Prop :=
  ∀ s, Stands s → Stands (after a s) ∧ (after a s).current = s.current ∧
    s.graph.scopes.size ≤ (after a s).graph.scopes.size

section

variable {a b : Analysis Unit}

theorem Walks.settles (h : Walks a) : Settles a := by
  intro s hs
  obtain ⟨hstands, -, hsize⟩ := h s hs.toStands
  exact ⟨hstands, hsize⟩

theorem walks_nothing : Walks (pure ()) := fun _ hs => ⟨hs, rfl, Nat.le_refl _⟩

theorem declares_nothing : Declares (pure ()) := fun _ hs => ⟨hs, rfl⟩

theorem Walks.seq (ha : Walks a) (hb : Walks b) : Walks (do a; b) := by
  intro s hs
  obtain ⟨hs₁, hcurrent₁, hsize₁⟩ := ha s hs
  obtain ⟨hs₂, hcurrent₂, hsize₂⟩ := hb _ hs₁
  exact ⟨hs₂, hcurrent₂.trans hcurrent₁, Nat.le_trans hsize₁ hsize₂⟩

theorem Declares.seq (ha : Declares a) (hb : Declares b) : Declares (do a; b) := by
  intro s hs
  obtain ⟨hs₁, hsize₁⟩ := ha s hs
  obtain ⟨hs₂, hsize₂⟩ := hb _ hs₁
  exact ⟨hs₂, hsize₂.trans hsize₁⟩

theorem Settles.seq (ha : Declares a) (hb : Settles b) : Settles (do a; b) := by
  intro s hs
  obtain ⟨hs₁, hsize₁⟩ := ha s hs
  obtain ⟨hs₂, hsize₂⟩ := hb _ hs₁
  exact ⟨hs₂, hsize₁ ▸ hsize₂⟩

theorem walks_forM {α : Type} {f : α → Analysis Unit} {xs : List α} (h : ∀ x ∈ xs, Walks (f x)) :
    Walks (xs.forM f) := by
  induction xs with
  | nil => exact walks_nothing
  | cons x xs ih =>
    exact (h x List.mem_cons_self).seq (ih fun y hy => h y (List.mem_cons_of_mem _ hy))

theorem declares_forM {α : Type} {f : α → Analysis Unit} (h : ∀ x, Declares (f x)) (xs : List α) :
    Declares (xs.forM f) := by
  induction xs with
  | nil => exact declares_nothing
  | cons x xs ih => exact (h x).seq ih

/-- A scope is new when it is entered, and the walk comes back from it. -/
theorem Settles.within (h : Settles a) (kind : ScopeKind) : Walks (within kind a) := by
  intro s hs
  have hsize : (s.graph.openScope kind (some s.current)).scopes.size = s.graph.scopes.size + 1 :=
    Array.size_push _
  have hopens : Opens { s with graph := s.graph.openScope kind (some s.current)
                               current := s.graph.scopes.size } :=
    { sound := hs.sound.openScope kind _
      housed := hs.housed.openScope kind _
      inside := hsize ▸ Nat.lt_succ_self _
      fresh := hs.sound.before }
  obtain ⟨hstands, hgrown⟩ := h _ hopens
  rw [after_within]
  have hle := Nat.le_trans (Nat.le_succ _) (hsize ▸ hgrown)
  exact ⟨⟨hstands.sound, hstands.housed, Nat.lt_of_lt_of_le hs.inside hle⟩, rfl, hle⟩

/-- Strictness makes no difference to the graph. -/
theorem Settles.withStrictness (h : Settles a) (strict : Bool) :
    Settles (withStrictness strict a) := by
  intro s hs
  obtain ⟨hstands, hsize⟩ := h { s with strict } ⟨⟨hs.sound, hs.housed, hs.inside⟩, hs.fresh⟩
  rw [after_withStrictness]
  exact ⟨⟨hstands.sound, hstands.housed, hstands.inside⟩, hsize⟩

end

/-! ## Declarations and references -/

theorem Opens.declaring {s : State} (hs : Opens s) (ds : List (Name × BindingKind)) :
    Opens (s.declaring ds) ∧ (s.declaring ds).graph.scopes.size = s.graph.scopes.size := by
  induction ds generalizing s with
  | nil => exact ⟨hs, rfl⟩
  | cons d ds ih =>
    have hsize := size_declareIn s.graph s.current d
    have hstep : Opens { s with graph := s.graph.declareIn s.current d } :=
      { sound := hs.sound.declareIn hs.fresh d
        housed := hs.housed.declareIn hs.sound.toWellFormed hs.inside d
        inside := hsize ▸ hs.inside
        fresh := hs.fresh.declareIn d }
    obtain ⟨hopens, hsize'⟩ := ih hstep
    exact ⟨hopens, hsize'.trans hsize⟩

theorem declares_declare (kind : BindingKind) (ident : Name) : Declares (declare kind ident) := by
  intro s hs
  rw [after_declare]
  exact Opens.declaring hs _

theorem declares_declareAll (kind : BindingKind) (ns : List Name) : Declares (declareAll kind ns) :=
  declares_forM (declares_declare kind) ns

theorem declares_declareLexical {c : Category} (t : Tree c) : Declares (declareLexical t) := by
  intro s hs
  rw [after_declareLexical]
  exact Opens.declaring hs _

theorem declares_hoistBlockFunction (ident : Name) : Declares (hoistBlockFunction ident) := by
  intro s hs
  cases ident with
  | nameHole _ => exact ⟨hs, rfl⟩
  | ident name id =>
    cases h : isBlocked s name with
    | true =>
      -- the function stays where it is
      have hnone : after (hoistBlockFunction (.ident name id)) s = s := by
        show after (if isBlocked s name then pure () else _) s = s
        rw [h]
        rfl
      rw [hnone]
      exact ⟨hs, rfl⟩
    | false =>
      rw [after_hoistBlockFunction h]
      obtain ⟨hopens, hsize⟩ := Opens.declaring hs [(.ident name id, .function)]
      exact ⟨⟨⟨hopens.sound, hopens.housed, hopens.inside⟩, hopens.fresh⟩, hsize⟩

theorem declares_declareBody (body : Block) : Declares (declareBody body) := by
  refine (declares_declareAll .var _).seq ((declares_declareLexical body).seq fun s hs => ?_)
  have hrest : after (do
      if !(← get).strict then (body.blockFunctions false).forM hoistBlockFunction) s =
        if s.strict then s else after ((body.blockFunctions false).forM hoistBlockFunction) s := by
    show after (if !s.strict then _ else pure ()) s = _
    cases s.strict <;> rfl
  rw [hrest]
  split
  · exact ⟨hs, rfl⟩
  · exact declares_forM declares_hoistBlockFunction _ s hs

theorem walks_reference (ident : Name) : Walks (reference ident) := by
  intro s hs
  rw [after_reference]
  have hsize := (grows_referIn s.graph s.current ident s.graph.scopes.size).size_le
  exact ⟨⟨hs.sound.referIn _ _, hs.housed.referIn _ _, Nat.lt_of_lt_of_le hs.inside hsize⟩, rfl, hsize⟩

/-! ## Scopes -/

theorem settles_inFunction (params : Tree (.list .binder)) (body : Block) {inner : Analysis Unit}
    (h : Walks inner) : Settles (inFunction params body inner) := by
  intro s hs
  have hinner : Settles (do declareAll .param params.boundNames; declareBody body; inner) :=
    .seq (declares_declareAll .param _) (.seq (declares_declareBody body) h.settles)
  exact hinner.withStrictness (s.strict || body.isStrict) s hs

theorem walks_inBlock (body : Block) {inner : Analysis Unit} (h : Walks inner) :
    Walks (inBlock body inner) :=
  Settles.within (.seq (declares_declareLexical body) h.settles) .block

theorem walks_inClass (name : Option Name) {inner : Analysis Unit} (h : Walks inner) :
    Walks (inClass name inner) := by
  have hinner : Settles (do name.toList.forM (declare .classDef); inner) :=
    .seq (declares_forM (declares_declare .classDef) _) h.settles
  exact (hinner.withStrictness true).within .classBody

/-- A loop: its head declares names in a scope around the whole of it. -/
theorem walks_loop {c : Category} (head : Tree c) {inner : Analysis Unit} (h : Walks inner) :
    Walks (within .loopHead do declareLexical head; inner) :=
  Settles.within (.seq (declares_declareLexical head) h.settles) .loopHead

/-- A function in a scope of its own. -/
theorem walks_function (params : Tree (.list .binder)) (body : Block) {inner : Analysis Unit}
    (h : Walks inner) : Walks (within .function (inFunction params body inner)) :=
  (settles_inFunction params body h).within .function

/-! ## Every phrase -/

/-- Functions, classes and identifiers. -/
theorem walks_of_quiet {c : Category} {t : Tree c} (hquiet : c.quiet = true)
    (hplain : t.plain = false) (hc : walked c = true)
    (ih : ∀ p ∈ t.parts, ∀ q ∈ p.2.phrases, walked q.1 = true → Walks (resolve q.2)) :
    Walks (resolve t) := by
  have hparts : Tree.Each (fun c t => walked c = true → Walks (resolve t)) t.parts :=
    .of_forall fun p hp => ih p hp p p.2.self_mem_phrases
  -- a part of a part, for the definitions that are walked with the phrase around them
  have hinner : ∀ p ∈ t.parts, Tree.Each (fun c t => walked c = true → Walks (resolve t)) p.2.parts :=
    fun p hp => .of_forall fun q hq => ih p hp q (Tree.mem_phrases_of_part hq q.2.self_mem_phrases)
  cases t with
  | identExpr name => exact walks_reference name
  | shorthand name => exact walks_reference name
  | functionExpr fn =>
    cases fn with
    | function isAsync isGenerator name params body =>
      have h := hinner _ List.mem_cons_self
      exact Settles.within (.seq (declares_forM (declares_declare .function) name.toOption.toList)
        (settles_inFunction params body ((h.2.1 rfl).seq (h.2.2.1 rfl)))) .function
  | arrow isAsync params inner =>
    have hbody : Walks (resolve inner) := by
      have h := hinner _ (List.mem_cons_of_mem _ List.mem_cons_self)
      cases inner with
      | exprBody value => exact h.1 rfl
      | blockBody body => exact h.1 rfl
    exact walks_function params inner.arrowBlock ((hparts.1 rfl).seq hbody)
  | classExpr definition =>
    cases definition with
    | classDef name heritage members =>
      have h := hinner _ List.mem_cons_self
      exact (h.2.1 rfl).seq (walks_inClass name.toOption (h.2.2.1 rfl))
  | methodProp kind key fn =>
    cases fn with
    | function isAsync isGenerator name params body =>
      have h := hinner _ (List.mem_cons_of_mem _ List.mem_cons_self)
      exact (hparts.1 rfl).seq (walks_function params body ((h.2.1 rfl).seq (h.2.2.1 rfl)))
  | method kind isStatic key fn =>
    cases fn with
    | function isAsync isGenerator name params body =>
      have h := hinner _ (List.mem_cons_of_mem _ List.mem_cons_self)
      exact (hparts.1 rfl).seq (walks_function params body ((h.2.1 rfl).seq (h.2.2.1 rfl)))
  | staticBlock inner => exact walks_function .nil inner (hparts.1 rfl)
  | classDef name heritage members => exact walks_nothing
  | _ =>
    first
    | exact absurd hquiet Bool.false_ne_true
    | exact absurd hplain Bool.noConfusion
    | exact absurd hc Bool.false_ne_true

/-- Statements that open scopes. -/
theorem walks_of_statement {c : Category} {t : Tree c} (hquiet : c.quiet = false)
    (hplain : t.plain = false)
    (ih : ∀ p ∈ t.parts, ∀ q ∈ p.2.phrases, walked q.1 = true → Walks (resolve q.2)) :
    Walks (resolve t) := by
  have hparts : Tree.Each (fun c t => walked c = true → Walks (resolve t)) t.parts :=
    .of_forall fun p hp => ih p hp p p.2.self_mem_phrases
  have hinner : ∀ p ∈ t.parts, Tree.Each (fun c t => walked c = true → Walks (resolve t)) p.2.parts :=
    fun p hp => .of_forall fun q hq => ih p hp q (Tree.mem_phrases_of_part hq q.2.self_mem_phrases)
  cases t with
  | functionStmt fn =>
    cases fn with
    | function isAsync isGenerator name params body =>
      have h := hinner _ List.mem_cons_self
      exact walks_function params body ((h.2.1 rfl).seq (h.2.2.1 rfl))
  | classStmt definition =>
    cases definition with
    | classDef name heritage members =>
      have h := hinner _ List.mem_cons_self
      exact (h.2.1 rfl).seq (walks_inClass none (h.2.2.1 rfl))
  | blockStmt inner => exact walks_inBlock inner (hparts.1 rfl)
  | forStmt init test step inner =>
    exact walks_loop init ((hparts.1 rfl).seq ((hparts.2.1 rfl).seq
      ((hparts.2.2.1 rfl).seq (hparts.2.2.2.1 rfl))))
  | forIn left right inner =>
    exact walks_loop left ((hparts.1 rfl).seq ((hparts.2.1 rfl).seq (hparts.2.2.1 rfl)))
  | forOf isAwait left right inner =>
    exact walks_loop left ((hparts.1 rfl).seq ((hparts.2.1 rfl).seq (hparts.2.2.1 rfl)))
  | switchStmt discriminant cases =>
    exact (hparts.1 rfl).seq (Settles.within
      (.seq (declares_declareLexical cases) (hparts.2.1 rfl).settles) .block)
  | handler param inner =>
    exact Settles.within (.seq (declares_declareAll .catchParam _)
      ((hparts.1 rfl).seq (walks_inBlock inner (hparts.2.1 rfl))).settles) .catchClause
  | tryStmt inner caught finalizer =>
    refine (walks_inBlock inner (hparts.1 rfl)).seq ((hparts.2.1 rfl).seq ?_)
    cases finalizer with
    | none => exact walks_nothing
    | some last => exact walks_inBlock last (hparts.2.2.1 rfl)
  | _ =>
    first
    | exact absurd hquiet Bool.noConfusion
    | exact absurd hplain Bool.noConfusion

/-- Every phrase that is walked by itself leaves the graph sound. -/
theorem walks_resolve {c : Category} (t : Tree c) (hc : walked c = true) : Walks (resolve t) := by
  induction t using Tree.induction_on_phrases with
  | step c t ih =>
    cases hplain : t.plain with
    | true =>
      rw [resolve_of_plain hplain]
      refine walks_forM fun p hp => ?_
      have hpart : p ∈ t.parts := Tree.parts_eq t ▸ List.mem_append_left _ hp
      exact ih p hpart p p.2.self_mem_phrases (walked_visited hplain hc p hp)
    | false =>
      cases hquiet : c.quiet with
      | true => exact walks_of_quiet hquiet hplain hc ih
      | false => exact walks_of_statement hquiet hplain ih

end Analysis

end Scope

/-! ## Programs -/

namespace Program

open ScopeGraph Scope Scope.Analysis

/-- The graph of a program is sound, and its bindings are where they say. -/
theorem sound_and_housed (p : Program) : p.scopeGraph.Sound ∧ p.scopeGraph.Housed := by
  have hblank : Housed { scopes := #[] } := ⟨fun _ _ hx => (nomatch hx), fun _ => List.Pairwise.nil⟩
  have hopens : Opens { strict := p.body.isStrict } :=
    { sound := sound_blank.openScope .program none
      housed := hblank.openScope .program none
      inside := Nat.lt_succ_self 0
      fresh := fun _ _ hx => (nomatch hx) }
  have hsettles : Settles (do declareBody p.body; resolve p.body) :=
    .seq (declares_declareBody p.body) (walks_resolve p.body rfl).settles
  obtain ⟨hstands, -⟩ := hsettles _ hopens
  exact ⟨hstands.sound, hstands.housed⟩

/-- **The resolution invariant.** Analyse any program and give bindings other names, one after the
other, each of them free when its turn comes. In the graph that results, the bindings of a scope have
different names, every recorded reference and every binding is found by its name from where it stands,
and no binding was given a global name. -/
theorem resolved_renameAll {p : Program} {rs : List (BindingId × String)}
    (hfree : p.scopeGraph.AllFree rs) : (p.scopeGraph.renameAll rs).Resolved := by
  obtain ⟨hsound, hhoused⟩ := p.sound_and_housed
  exact (hsound.toWellFormed.renameAll hfree).resolved_of_housed (hhoused.renameAll rs)

/-- `function f(a) { a; g; { let a; a; } }`, in which the parameter gives up a name that is
still in use inside. -/
def shadowedParameter : Program where
  body := Tree.blockOf [
    .functionStmt (.function false false (.some (.ident "f" (some 9)))
      (.ofList [.nameBinder (.ident "a" (some 11))])
      (Tree.blockOf [
        .exprStmt (.identExpr (.ident "a" (some 16))),
        .exprStmt (.identExpr (.ident "g" (some 19))),
        .blockStmt (Tree.blockOf [
          .varStmt (.varDecl .lexical
            (.ofList [.declarator (.nameBinder (.ident "a" (some 28))) .none])),
          .exprStmt (.identExpr (.ident "a" none))])]))]

/-- The function takes the name that its parameter had. -/
theorem resolved_renameAll_shadowedParameter :
    shadowedParameter.scopeGraph.AllFree [(1, "k"), (0, "a")] ∧
      (shadowedParameter.scopeGraph.renameAll [(1, "k"), (0, "a")]).Resolved := by
  have hfree : shadowedParameter.scopeGraph.AllFree [(1, "k"), (0, "a")] := by decide +kernel
  exact ⟨hfree, resolved_renameAll hfree⟩

end Program

end Unminify
