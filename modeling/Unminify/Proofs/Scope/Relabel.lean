import Unminify.Proofs.Scope.Growth
import Unminify.Scope.Rename

/-!
# Analysis under other names

An outline is run twice: once as it is, and once with every name replaced by the one that its binding
has in a graph `final`, which grew out of the first run and was renamed since. The second run goes
through the same graphs as the first, up to names (`Outline.run_rename`).

Nothing about renaming itself is used but that `final` is well-formed: references find their bindings
there, no scope has two bindings of one name, and no global name was given away.
-/

namespace Unminify

/-- A binding under another name, as if it had been declared with it. -/
def Binding.called (x : Binding) (name : String) : Binding := { x with name, declaredName := name }

namespace ScopeGraph

/-! ## Names in the final graph -/

/-- An identifier under the name its binding has now. -/
def renameName (final : ScopeGraph) : Name → Name
  | .ident text id => .ident ((final.renamedBinding? (.ident text id)).elim text (·.name)) id
  | .nameHole i => .nameHole i

/-- The name that a binding has now. -/
def nameNow (final : ScopeGraph) (b : BindingId) (x : Binding) : String :=
  (final.bindings[b]?.map (·.name)).getD x.name

/-- A graph in which bindings have the names they have in the final one. -/
def relabel (final g : ScopeGraph) : ScopeGraph :=
  { g with bindings := g.bindings.mapIdx fun b x => x.called (final.nameNow b x) }

theorem nameId?_renameName (final : ScopeGraph) (n : Name) :
    (final.renameName n).nameId? = n.nameId? := by
  cases n <;> rfl

section

variable {final g : ScopeGraph}

theorem nameNow_eq {b : BindingId} {x y : Binding} (hy : final.bindings[b]? = some y) :
    final.nameNow b x = y.name := by
  rw [nameNow, hy]
  rfl

theorem getElem?_relabel (final g : ScopeGraph) (b : BindingId) :
    (final.relabel g).bindings[b]? = g.bindings[b]?.map fun x => x.called (final.nameNow b x) :=
  Array.getElem?_mapIdx

/-- An identifier has the name of its binding. -/
theorem renameName_eq {name : String} {id : Nat} {b : BindingId} {y : Binding}
    (hat : final.bindingAt id = some b) (hy : final.bindings[b]? = some y)
    (hname : y.declaredName = name) :
    final.renameName (.ident name (some id)) = .ident y.name (some id) := by
  have hbinding : final.renamedBinding? (.ident name (some id)) =
      if y.isRenamed then some y else none := by
    show (do
      let b ← final.bindings[← final.bindingAt id]?
      if b.isRenamed then some b else none) = _
    rw [hat]
    show (do
      let b ← final.bindings[b]?
      if b.isRenamed then some b else none) = _
    rw [hy]
    rfl
  rw [renameName, hbinding]
  by_cases hrenamed : y.isRenamed = true
  · rw [if_pos hrenamed]
    rfl
  · rw [if_neg hrenamed]
    have hsame : y.name = y.declaredName := by
      simpa only [Binding.isRenamed, bne_iff_ne, ne_eq, Decidable.not_not] using hrenamed
    rw [hsame, hname]
    rfl

/-- An identifier of no binding keeps its name. -/
theorem renameName_of_none {name : String} {id : Nat} (hat : final.bindingAt id = none) :
    final.renameName (.ident name (some id)) = .ident name (some id) := by
  have hbinding : final.renamedBinding? (.ident name (some id)) = none := by
    show (do
      let b ← final.bindings[← final.bindingAt id]?
      if b.isRenamed then some b else none) = _
    rw [hat]
    rfl
  rw [renameName, hbinding]
  rfl

/-- A binding of a graph is known in the final graph by its number. -/
theorem isNamed_relabel {n : Nat} (hgrows : g.Grows final n) {b : BindingId} {x : Binding}
    (hx : g.bindings[b]? = some x) (name : String) :
    (final.relabel g).isNamed name b = final.isNamed name b := by
  obtain ⟨y, hy, -⟩ := hgrows.bindings b x hx
  have hx' : (final.relabel g).bindings[b]? = some (x.called y.name) := by
    rw [getElem?_relabel, hx, Option.map_some, nameNow_eq hy]
  rw [isNamed_of_getElem? hx', isNamed_of_getElem? hy]
  rfl

/-- From a scope that is there already, names are looked up as in the final graph. -/
theorem lookup_relabel (hg : g.Sound) (hgrows : g.Grows final g.scopes.size) {s : ScopeId}
    (hs : s < g.scopes.size) (name : String) :
    (final.relabel g).lookup s name = final.lookup s name := by
  have hscopes : ∀ t ≤ s, g.scopes[t]? = final.scopes[t]? :=
    fun t ht => (hgrows.scopes t (Nat.lt_of_le_of_lt ht hs)).symm
  refine lookup_congr (fun t ht => hscopes t ht) fun b hb => ?_
  rw [← visible_congr hscopes] at hb
  obtain ⟨x, hx⟩ := hg.exists_of_visible hb
  exact isNamed_relabel hgrows hx name

/-! ## Single steps -/

/-- Changes that leave names alone can be made before or after relabelling. -/
theorem mapIdx_modify {f : Binding → Binding} (hname : ∀ x, (f x).name = x.name)
    (hcalled : ∀ (x : Binding) name, (f x).called name = f (x.called name)) (b : BindingId) :
    (g.bindings.modify b f).mapIdx (fun b x => x.called (final.nameNow b x)) =
      (g.bindings.mapIdx fun b x => x.called (final.nameNow b x)).modify b f := by
  refine Array.ext_getElem? fun i => ?_
  rw [Array.getElem?_mapIdx, Array.getElem?_modify, Array.getElem?_modify, Array.getElem?_mapIdx]
  split
  · cases g.bindings[i]? with
    | none => rfl
    | some x =>
      have hnow : final.nameNow i (f x) = final.nameNow i x := by rw [nameNow, nameNow, hname]
      simp only [Option.map_some, hnow, hcalled]
  · rfl

theorem relabel_addReference (b : BindingId) (r : Reference) :
    final.relabel (g.addReference b r) = (final.relabel g).addReference b r :=
  congrArg (fun bindings => { g with bindings, occurrences := g.occurrences.insert r.id b })
    (mapIdx_modify (f := fun x => { x with references := x.references.push r }) (fun _ => rfl)
      (fun _ _ => rfl) b)

theorem relabel_addDeclaration (b : BindingId) (id : Nat) :
    final.relabel (g.addDeclaration b id) = (final.relabel g).addDeclaration b id :=
  congrArg (fun bindings => { g with bindings, occurrences := g.occurrences.insert id b })
    (mapIdx_modify (f := fun x => { x with declarations := x.declarations.push id }) (fun _ => rfl)
      (fun _ _ => rfl) b)

theorem relabel_addBinding {s : ScopeId} {name : String} {kind : BindingKind} {y : Binding}
    (hy : final.bindings[g.bindings.size]? = some y) :
    final.relabel (g.addBinding s name kind) = (final.relabel g).addBinding s y.name kind := by
  simp only [relabel, addBinding, Array.mapIdx_push, Array.size_mapIdx, nameNow_eq hy]
  rfl

/-- A name that is global before renames is looked up in vain after them. -/
theorem lookup_of_global (hfinal : final.WellFormed) (hg : g.Sound)
    (hgrows : g.Grows final g.scopes.size) {s : ScopeId} (hs : s < g.scopes.size) {name : String}
    (hglobal : final.isGlobal name = true) (hnone : g.lookup s name = none) :
    final.lookup s name = none := by
  have hscopes : ∀ t ≤ s, final.scopes[t]? = g.scopes[t]? :=
    fun t ht => hgrows.scopes t (Nat.lt_of_le_of_lt ht hs)
  rw [lookup_eq_none, visible_congr hscopes]
  intro b hb
  obtain ⟨x, hx⟩ := hg.exists_of_visible hb
  obtain ⟨y, hy, hdeclared, -⟩ := hgrows.bindings b x hx
  refine Bool.eq_false_iff.mpr fun hnamed => ?_
  rw [isNamed_of_getElem? hy, beq_iff_eq] at hnamed
  subst hnamed
  -- a binding of this name cannot have been renamed, so it would have been found before
  have hsame : y.name = y.declaredName := by
    by_cases hrenamed : y.isRenamed = true
    · have hfree := hfinal.taken b y hy hrenamed
      rw [hglobal] at hfree
      cases hfree
    · simpa only [Binding.isRenamed, bne_iff_ne, ne_eq, Decidable.not_not] using hrenamed
  have hold := lookup_eq_none.mp hnone b hb
  rw [isNamed_of_getElem? hx, hsame, hdeclared, hg.unrenamed b x hx, beq_self_eq_true] at hold
  cases hold

/-- A reference, before and after renames. -/
theorem relabel_referIn (hfinal : final.WellFormed) (hg : g.Sound) {s : ScopeId}
    (hs : s < g.scopes.size) {name : String} {id : Nat}
    (hgrows : (g.referIn s (.ident name (some id))).Grows final g.scopes.size)
    (hat : final.bindingAt id = (g.referIn s (.ident name (some id))).bindingAt id)
    (hfresh : g.bindingAt id = none) :
    (final.relabel g).referIn s (final.renameName (.ident name (some id))) =
      final.relabel (g.referIn s (.ident name (some id))) := by
  have hgrows' : g.Grows final g.scopes.size :=
    (grows_referIn g s _ g.scopes.size).trans hgrows (Nat.le_refl _)
  rcases referIn_cases g s name id with ⟨b, hlookup, heq⟩ | ⟨hlookup, heq⟩
  · rw [heq] at hgrows hat ⊢
    have hnamed := hlookup
    rw [lookup_eq] at hnamed
    obtain ⟨x, hx, hname⟩ := isNamed_iff.mp (List.find?_some hnamed)
    have hx' : (g.addReference b { id, scope := s }).bindings[b]? =
        some { x with references := x.references.push { id, scope := s } } := by
      rw [addReference, Array.getElem?_modify, if_pos rfl, hx]
      rfl
    obtain ⟨y, hy, hdeclared, hrefs⟩ := hgrows.bindings b _ hx'
    have hatb : final.bindingAt id = some b := by
      rw [hat]
      exact Std.TreeMap.getElem?_insert_self
    have hfound := hfinal.resolved b y hy { id, scope := s } (hrefs _ Array.mem_push_self)
    rw [renameName_eq hatb hy (hdeclared.trans ((hg.unrenamed b x hx).symm.trans hname)),
      relabel_addReference]
    rw [← lookup_relabel hg hgrows' hs] at hfound
    simp only [referIn, hfound]
  · rw [heq] at hgrows hat ⊢
    have hglobal : final.isGlobal name = true := by
      refine hgrows.globals name ?_
      show (g.globals.insert name).contains name = true
      exact Std.TreeSet.contains_insert_self
    have hnone := lookup_of_global hfinal hg hgrows' hs hglobal hlookup
    rw [renameName_of_none (hat.trans hfresh)]
    rw [← lookup_relabel hg hgrows' hs] at hnone
    simp only [referIn, hnone]
    rfl

/-! ## Declarations -/

/-- The binding that a declaration belongs to. -/
theorem bound_spec (hg : g.Sound) {s : ScopeId} (hs : s < g.scopes.size) (name : String)
    (kind : BindingKind) :
    (g.bound s name kind).2 ∈ (g.bound s name kind).1.own s ∧
      ∃ x, (g.bound s name kind).1.bindings[(g.bound s name kind).2]? = some x ∧
        x.declaredName = name := by
  rw [bound]
  split
  next b hfound =>
    rw [findHere_eq] at hfound
    obtain ⟨x, hx, hname⟩ := isNamed_iff.mp (List.find?_some hfound)
    exact ⟨List.mem_of_find?_eq_some hfound, x, hx, (hg.unrenamed b x hx).symm.trans hname⟩
  next =>
    refine ⟨mem_own_addBinding.mpr (.inr ⟨rfl, hs, rfl⟩),
      { name, declaredName := name, kind, scope := s }, ?_, rfl⟩
    rw [getElem?_addBinding, if_pos rfl]

theorem own_subset_bound {s : ScopeId} {name : String} {kind : BindingKind} {b : BindingId}
    (hb : b ∈ g.own s) : b ∈ (g.bound s name kind).1.own s := by
  rw [bound]
  split
  · exact hb
  · exact mem_own_addBinding.mpr (.inl hb)

/-- Where an identifier is declared, its position says what it declares. -/
theorem bindingAt_declareIn_self (s : ScopeId) (name : String) (id : Nat) (kind : BindingKind) :
    (g.declareIn s (.ident name (some id), kind)).bindingAt id = some (g.bound s name kind).2 :=
  Std.TreeMap.getElem?_insert_self

/-- A scope is searched for the one binding it has of a name. -/
theorem find?_of_unique {α : Type} {p : α → Bool} {xs : List α} {x : α} (hx : x ∈ xs)
    (hp : p x = true) (hunique : ∀ y ∈ xs, p y = true → y = x) : xs.find? p = some x := by
  cases hfind : xs.find? p with
  | none => exact absurd hp (List.find?_eq_none.mp hfind x hx)
  | some y => rw [hunique y (List.mem_of_find?_eq_some hfind) (List.find?_some hfind)]

/-- The same binding is found or made under the new name. -/
theorem relabel_bound (hfinal : final.WellFormed) (hg : g.Sound) {s : ScopeId}
    {name : String} {kind : BindingKind} (hgrows : (g.bound s name kind).1.Grows final s)
    (hown : ∀ b ∈ (g.bound s name kind).1.own s, b ∈ final.own s)
    (hmem : (g.bound s name kind).2 ∈ (g.bound s name kind).1.own s) {y : Binding}
    (hy : final.bindings[(g.bound s name kind).2]? = some y) :
    (final.relabel g).bound s y.name kind =
      (final.relabel (g.bound s name kind).1, (g.bound s name kind).2) := by
  have hgrows' : g.Grows final s := (grows_bound g s name kind).trans hgrows (Nat.le_refl s)
  have hyname : final.isNamed y.name (g.bound s name kind).2 = true := isNamed_iff.mpr ⟨y, hy, rfl⟩
  -- of the bindings of the scope, only this one has the name
  have hunique : ∀ a ∈ g.own s, (final.relabel g).isNamed y.name a = true →
      a = (g.bound s name kind).2 := by
    intro a ha hnamed
    obtain ⟨x, hx, -⟩ := hg.listed s a ha
    rw [isNamed_relabel hgrows' hx] at hnamed
    exact hfinal.distinct s a (hown a (own_subset_bound ha)) _ (hown _ hmem) y.name hnamed hyname
  have hfind : (final.relabel g).findHere s y.name = g.findHere s name := by
    rw [findHere_eq]
    show (g.own s).find? _ = _
    cases hhere : g.findHere s name with
    | some b =>
      have hb : (g.bound s name kind).2 = b := by rw [bound, hhere]
      rw [hb] at hunique hyname
      rw [findHere_eq] at hhere
      have hbmem := List.mem_of_find?_eq_some hhere
      obtain ⟨x, hx, -⟩ := hg.listed s b hbmem
      exact find?_of_unique hbmem ((isNamed_relabel hgrows' hx _).trans hyname) hunique
    | none =>
      have hb : (g.bound s name kind).2 = g.bindings.size := by rw [bound, hhere]
      rw [hb] at hunique
      refine List.find?_eq_none.mpr fun a ha hnamed => ?_
      obtain ⟨x, hx, -⟩ := hg.listed s a ha
      obtain rfl := hunique a ha hnamed
      exact absurd (Array.getElem?_eq_some_iff.mp hx).1 (Nat.lt_irrefl _)
  cases hhere : g.findHere s name with
  | some b => simp only [bound, hfind, hhere]
  | none =>
    have hb : (g.bound s name kind).2 = g.bindings.size := by rw [bound, hhere]
    rw [hb] at hy
    have hsize : (final.relabel g).bindings.size = g.bindings.size := Array.size_mapIdx
    simp only [bound, hfind, hhere, relabel_addBinding hy, hsize]

/-- A declaration, before and after renames. -/
theorem relabel_declareIn (hfinal : final.WellFormed) (hg : g.Sound) {s : ScopeId}
    (hs : s < g.scopes.size) {name : String} {id : Nat} {kind : BindingKind}
    (hgrows : (g.declareIn s (.ident name (some id), kind)).Grows final s)
    (hat : final.bindingAt id = (g.declareIn s (.ident name (some id), kind)).bindingAt id)
    (hown : ∀ b ∈ (g.declareIn s (.ident name (some id), kind)).own s, b ∈ final.own s) :
    (final.relabel g).declareIn s (final.renameName (.ident name (some id)), kind) =
      final.relabel (g.declareIn s (.ident name (some id), kind)) := by
  obtain ⟨hmem, x, hx, hdeclared⟩ := bound_spec hg hs name kind
  have hgrows' := ((touched_addDeclaration (g.bound s name kind).1 (g.bound s name kind).2 id).grows
    s).trans hgrows (Nat.le_refl s)
  obtain ⟨y, hy, hdeclared', -⟩ := hgrows'.bindings _ x hx
  rw [bindingAt_declareIn_self] at hat
  rw [renameName_eq hat hy (hdeclared'.trans hdeclared), declareIn_eq, declareIn_eq,
    relabel_bound hfinal hg hgrows' hown hmem hy, relabel_addDeclaration]

/-- An identifier with a position. -/
theorem eq_ident {n : Name} (hn : n.nameId? ≠ none) :
    ∃ (name : String) (id : Nat), n = .ident name (some id) := by
  cases n with
  | nameHole _ => exact absurd rfl hn
  | ident name id =>
    cases id with
    | none => exact absurd rfl hn
    | some id => exact ⟨name, id, rfl⟩

/-- A declaration under the name that its binding has now. -/
def renameDeclared (final : ScopeGraph) (d : Name × BindingKind) : Name × BindingKind :=
  (final.renameName d.1, d.2)

theorem size_declareIn (g : ScopeGraph) (s : ScopeId) (d : Name × BindingKind) :
    (g.declareIn s d).scopes.size = g.scopes.size := by
  have hbound : ∀ name kind, (g.bound s name kind).1.scopes.size = g.scopes.size := by
    intro name kind
    rw [bound]
    split
    · rfl
    · exact Array.size_modify
  unfold declareIn
  split
  · exact hbound _ _
  · exact hbound _ _
  · rfl

theorem own_subset_declareAll {s : ScopeId} {ds : List (Name × BindingKind)} {b : BindingId}
    (hb : b ∈ g.own s) : b ∈ (ds.foldl (·.declareIn s ·) g).own s := by
  induction ds generalizing g with
  | nil => exact hb
  | cons d ds ih =>
    have hstep : b ∈ (g.declareIn s d).own s := by
      unfold declareIn
      split
      · exact own_subset_bound hb
      · exact own_subset_bound hb
      · exact hb
    exact ih hstep

/-- The positions of declarations. -/
def declaredPositions (ds : List (Name × BindingKind)) : List (Option Nat) := ds.map (·.1.nameId?)

/-- The final graph grew out of one in which these declarations were made in a scope. -/
structure Knows (final g : ScopeGraph) (s : ScopeId) (ds : List (Name × BindingKind)) : Prop where
  grows : (ds.foldl (·.declareIn s ·) g).Grows final s
  own : ∀ b ∈ (ds.foldl (·.declareIn s ·) g).own s, b ∈ final.own s
  places : ∀ i, some i ∈ declaredPositions ds →
    final.bindingAt i = (ds.foldl (·.declareIn s ·) g).bindingAt i

theorem Knows.tail {s : ScopeId} {d : Name × BindingKind} {ds : List (Name × BindingKind)}
    (h : Knows final g s (d :: ds)) : Knows final (g.declareIn s d) s ds :=
  ⟨h.grows, h.own, fun i hi => h.places i (List.mem_cons_of_mem _ hi)⟩

theorem Knows.head {s : ScopeId} {d : Name × BindingKind} {ds : List (Name × BindingKind)}
    (h : Knows final g s (d :: ds)) (hg : g.Sound) (hbefore : g.Before s)
    (hnodup : (declaredPositions (d :: ds)).Nodup) :
    (g.declareIn s d).Grows final s ∧ (∀ b ∈ (g.declareIn s d).own s, b ∈ final.own s) ∧
      ∀ i, some i = d.1.nameId? → final.bindingAt i = (g.declareIn s d).bindingAt i := by
  have htail := h.tail
  refine ⟨?_, fun b hb => htail.own b (own_subset_declareAll hb), fun i hi => ?_⟩
  · exact (sound_declareAll (hg.declareIn hbefore d) (hbefore.declareIn d)).2.trans htail.grows
      (Nat.le_refl s)
  · have hplace : final.bindingAt i = (ds.foldl (·.declareIn s ·) (g.declareIn s d)).bindingAt i :=
      h.places i (hi ▸ List.mem_cons_self)
    refine hplace.trans (bindingAt_declareAll ?_)
    rw [hi]
    exact (List.nodup_cons.mp hnodup).1

/-- Declarations, before and after renames. -/
theorem relabel_declareAll (hfinal : final.WellFormed) (hg : g.Sound) {s : ScopeId}
    (hs : s < g.scopes.size) (hbefore : g.Before s) {ds : List (Name × BindingKind)}
    (hknows : Knows final g s ds) (hnone : none ∉ declaredPositions ds)
    (hnodup : (declaredPositions ds).Nodup) :
    (ds.map final.renameDeclared).foldl (·.declareIn s ·) (final.relabel g) =
      final.relabel (ds.foldl (·.declareIn s ·) g) := by
  induction ds generalizing g with
  | nil => rfl
  | cons d ds ih =>
    have hd : d.1.nameId? ≠ none := fun h => hnone (h ▸ List.mem_cons_self)
    have hds : none ∉ declaredPositions ds := fun h => hnone (List.mem_cons_of_mem _ h)
    obtain ⟨ident, kind⟩ := d
    obtain ⟨name, id, rfl⟩ := eq_ident hd
    obtain ⟨hgrows, hown, hplace⟩ := hknows.head hg hbefore hnodup
    have hstep := relabel_declareIn hfinal hg hs hgrows (hplace id rfl) hown
    rw [List.map_cons, List.foldl_cons, List.foldl_cons, ← ih (hg.declareIn hbefore _)
      (by rwa [size_declareIn]) (hbefore.declareIn _) hknows.tail hds (List.nodup_cons.mp hnodup).2]
    exact congrArg (List.foldl (·.declareIn s ·) · (ds.map final.renameDeclared)) hstep

/-- Every declared name is that of a binding of the scope, before and after renames. -/
theorem Knows.spec {s : ScopeId} {ds : List (Name × BindingKind)} (h : Knows final g s ds)
    (hg : g.Sound) (hs : s < g.scopes.size) (hbefore : g.Before s)
    (hnone : none ∉ declaredPositions ds) (hnodup : (declaredPositions ds).Nodup) :
    ∀ d ∈ ds, ∃ b ∈ final.own s, ∃ y, final.bindings[b]? = some y ∧
      d.1.nameText? = some y.declaredName ∧ (final.renameName d.1).nameText? = some y.name := by
  induction ds generalizing g with
  | nil => exact fun d hd => (nomatch hd)
  | cons d ds ih =>
    have hd : d.1.nameId? ≠ none := fun h => hnone (h ▸ List.mem_cons_self)
    have hds : none ∉ declaredPositions ds := fun h => hnone (List.mem_cons_of_mem _ h)
    intro e he
    rcases List.mem_cons.mp he with rfl | he
    · obtain ⟨ident, kind⟩ := e
      obtain ⟨name, id, rfl⟩ := eq_ident hd
      obtain ⟨hgrows, hown, hplace⟩ := h.head hg hbefore hnodup
      obtain ⟨hmem, x, hx, hdeclared⟩ := bound_spec hg hs name kind
      have hgrows' := ((touched_addDeclaration (g.bound s name kind).1 (g.bound s name kind).2
        id).grows s).trans hgrows (Nat.le_refl s)
      obtain ⟨y, hy, hdeclared', -⟩ := hgrows'.bindings _ x hx
      have hat := (hplace id rfl).trans (bindingAt_declareIn_self s name id kind)
      refine ⟨_, hown _ hmem, y, hy, ?_, ?_⟩
      · rw [hdeclared', hdeclared]
        rfl
      · rw [renameName_eq hat hy (hdeclared'.trans hdeclared)]
        rfl
    · exact ih h.tail (hg.declareIn hbefore d) (by rwa [size_declareIn]) (hbefore.declareIn d) hds
        (List.nodup_cons.mp hnodup).2 e he

/-! ## Scopes -/

theorem size_enter (g : ScopeGraph) (kind : ScopeKind) (parent : Option ScopeId)
    (ds : List (Name × BindingKind)) : (g.enter kind parent ds).scopes.size = g.scopes.size + 1 := by
  have hfold : ∀ (g' : ScopeGraph) (s : ScopeId),
      (ds.foldl (·.declareIn s ·) g').scopes.size = g'.scopes.size := by
    intro g' s
    induction ds generalizing g' with
    | nil => rfl
    | cons d ds ih => exact (ih _).trans (size_declareIn g' s d)
  exact (hfold _ _).trans (Array.size_push _)

/-- A final graph that grew out of a scope's declarations knows them. -/
theorem knows_of_grows {kind : ScopeKind} {parent : Option ScopeId}
    {ds : List (Name × BindingKind)}
    (hgrows : (g.enter kind parent ds).Grows final (g.scopes.size + 1))
    (hplaces : ∀ i, some i ∈ declaredPositions ds →
      final.bindingAt i = (g.enter kind parent ds).bindingAt i) :
    Knows final (g.openScope kind parent) g.scopes.size ds where
  grows := ⟨fun s hs => hgrows.scopes s (Nat.lt_succ_of_lt hs), hgrows.bindings, hgrows.globals⟩
  own b hb := by
    rw [ScopeGraph.own, hgrows.scopes _ (Nat.lt_succ_self _)]
    exact hb
  places := hplaces

/-- A scope that is entered, before and after renames. -/
theorem relabel_enter (hfinal : final.WellFormed) (hg : g.Sound) {kind : ScopeKind}
    {parent : Option ScopeId} {ds : List (Name × BindingKind)}
    (hknows : Knows final (g.openScope kind parent) g.scopes.size ds)
    (hnone : none ∉ declaredPositions ds) (hnodup : (declaredPositions ds).Nodup) :
    (final.relabel g).enter kind parent (ds.map final.renameDeclared) =
      final.relabel (g.enter kind parent ds) :=
  relabel_declareAll hfinal (hg.openScope kind parent)
    (Nat.lt_of_lt_of_eq (Nat.lt_succ_self _) (Array.size_push _).symm) hg.before hknows hnone hnodup

end

end ScopeGraph

/-! ## Outlines -/

namespace Outline

open ScopeGraph

/-- An outline under other names. -/
def rename (final : ScopeGraph) : Outline → Outline
  | nil => nil
  | reference name rest => reference (final.renameName name) (rest.rename final)
  | scope kind declared hoisted inner rest =>
    scope kind (declared.map final.renameDeclared) (hoisted.map final.renameName)
      (inner.rename final) (rest.rename final)

theorem allDeclared_rename (final : ScopeGraph) (declared : List (Name × BindingKind))
    (hoisted : List Name) :
    allDeclared (declared.map final.renameDeclared) (hoisted.map final.renameName) =
      (allDeclared declared hoisted).map final.renameDeclared := by
  simp only [allDeclared, List.map_append, List.map_map]
  rfl

/-- In a well-formed graph, block functions do not clash under their new names either. -/
theorem noClash_declared {final : ScopeGraph} {s : ScopeId} {declared : List (Name × BindingKind)}
    {hoisted : List Name} (hfinal : final.WellFormed)
    (hspec : ∀ d ∈ allDeclared declared hoisted, ∃ b ∈ final.own s, ∃ y, final.bindings[b]? = some y ∧
      d.1.nameText? = some y.declaredName ∧ (final.renameName d.1).nameText? = some y.name)
    (hclash : ∀ f ∈ hoisted, ∀ d ∈ declared, d.2.blocks = true → f.nameText? ≠ d.1.nameText?) :
    ∀ f ∈ hoisted.map final.renameName, ∀ d ∈ declared.map final.renameDeclared,
      d.2.blocks = true → f.nameText? ≠ d.1.nameText? := by
  intro f' hf' d' hd' hblocks heq
  obtain ⟨f, hf, rfl⟩ := List.mem_map.mp hf'
  obtain ⟨d, hd, rfl⟩ := List.mem_map.mp hd'
  obtain ⟨b, hb, y, hy, hold, hnew⟩ := hspec (f, .function)
    (List.mem_append_right _ (List.mem_map_of_mem hf))
  obtain ⟨b', hb', y', hy', hold', hnew'⟩ := hspec d (List.mem_append_left _ hd)
  have hname : y.name = y'.name := Option.some.inj (hnew.symm.trans (heq.trans hnew'))
  obtain rfl := hfinal.distinct s b hb b' hb' y.name (isNamed_iff.mpr ⟨y, hy, rfl⟩)
    (isNamed_iff.mpr ⟨y', hy', hname.symm⟩)
  obtain rfl : y = y' := Option.some.inj (hy.symm.trans hy')
  exact hclash f hf d hd hblocks (hold.trans hold'.symm)

/-- A graph from which an outline was run on the way to the final graph. Every identifier of the
outline is new, and keeps the binding it gets. -/
structure Leads (o : Outline) (s : ScopeId) (g final : ScopeGraph) : Prop where
  sound : g.Sound
  inside : s < g.scopes.size
  grows : (o.run s g).Grows final (o.run s g).scopes.size
  placed : none ∉ o.positions
  distinct : o.positions.Nodup
  fresh : ∀ i, some i ∈ o.positions → g.bindingAt i = none
  places : ∀ i, some i ∈ o.positions → final.bindingAt i = (o.run s g).bindingAt i

section

variable {s : ScopeId} {g final : ScopeGraph}

theorem Leads.afterReference {name : Name} {rest : Outline}
    (h : (reference name rest).Leads s g final) : rest.Leads s (g.referIn s name) final where
  sound := h.sound.referIn s name
  inside := Nat.lt_of_lt_of_le h.inside (grows_referIn g s name _).size_le
  grows := h.grows
  placed hi := h.placed (List.mem_cons_of_mem _ hi)
  distinct := (List.nodup_cons.mp h.distinct).2
  fresh i hi := by
    refine (bindingAt_referIn ?_).trans (h.fresh i (List.mem_cons_of_mem _ hi))
    rintro heq
    exact (List.nodup_cons.mp h.distinct).1 (heq ▸ hi)
  places i hi := h.places i (List.mem_cons_of_mem _ hi)

/-- What the final graph knows of a reference. -/
theorem Leads.reference {name : Name} {rest : Outline}
    (h : (Outline.reference name rest).Leads s g final) :
    (g.referIn s name).Grows final g.scopes.size ∧
      ∀ i, some i = name.nameId? → final.bindingAt i = (g.referIn s name).bindingAt i := by
  have hrest := h.afterReference
  have hgrows := rest.run_grows s hrest.sound
  refine ⟨?_, fun i hi => ?_⟩
  · have hall : (g.referIn s name).Grows final (g.referIn s name).scopes.size :=
      hgrows.trans hrest.grows hgrows.size_le
    have hsize := (grows_referIn g s name g.scopes.size).size_le
    exact ⟨fun t ht => hall.scopes t (Nat.lt_of_lt_of_le ht hsize), hall.bindings, hall.globals⟩
  · refine (h.places i (hi ▸ List.mem_cons_self)).trans (rest.run_bindingAt s _ ?_)
    rw [hi]
    exact (List.nodup_cons.mp h.distinct).1

variable {kind : ScopeKind} {declared : List (Name × BindingKind)} {hoisted : List Name}
  {inner rest : Outline}

theorem mem_positions_scope {i : Option Nat} :
    i ∈ (scope kind declared hoisted inner rest).positions ↔
      i ∈ declaredPositions (allDeclared declared hoisted) ∨ i ∈ inner.positions ∨
        i ∈ rest.positions := by
  rw [positions_scope, List.mem_append, List.mem_append, or_assoc]
  rfl

/-- The identifiers that a scope declares, has inside it and after it are different ones. -/
theorem distinct_scope (h : (scope kind declared hoisted inner rest).positions.Nodup) :
    (declaredPositions (allDeclared declared hoisted)).Nodup ∧ inner.positions.Nodup ∧
      rest.positions.Nodup ∧
      (∀ i ∈ declaredPositions (allDeclared declared hoisted), i ∉ inner.positions) ∧
      (∀ i ∈ declaredPositions (allDeclared declared hoisted), i ∉ rest.positions) ∧
      ∀ i ∈ inner.positions, i ∉ rest.positions := by
  rw [positions_scope] at h
  obtain ⟨h, hrest, hlast⟩ := List.nodup_append.mp h
  obtain ⟨hdeclared, hinner, hfirst⟩ := List.nodup_append.mp h
  exact ⟨hdeclared, hinner, hrest, fun i hi hi' => hfirst i hi i hi' rfl,
    fun i hi hi' => hlast i (List.mem_append_left _ hi) i hi' rfl,
    fun i hi hi' => hlast i (List.mem_append_right _ hi) i hi' rfl⟩

theorem Leads.insideScope (h : (scope kind declared hoisted inner rest).Leads s g final) :
    inner.Leads g.scopes.size (g.enter kind (some s) (allDeclared declared hoisted)) final := by
  obtain ⟨-, hinner, -, hdi, -, hir⟩ := distinct_scope h.distinct
  have hsound := h.sound.enter kind (some s) (allDeclared declared hoisted)
  have hgrows := rest.run_grows s (inner.run_sound g.scopes.size hsound)
  refine ⟨hsound, ?_, hgrows.trans h.grows hgrows.size_le, fun hi => h.placed ?_, hinner,
    fun i hi => ?_, fun i hi => ?_⟩
  · rw [size_enter]
    exact Nat.lt_succ_self _
  · exact mem_positions_scope.mpr (.inr (.inl hi))
  · exact (bindingAt_declareAll fun hi' => hdi _ hi' hi).trans
      (h.fresh i (mem_positions_scope.mpr (.inr (.inl hi))))
  · exact (h.places i (mem_positions_scope.mpr (.inr (.inl hi)))).trans
      (rest.run_bindingAt s _ (hir _ hi))

theorem Leads.afterScope (h : (scope kind declared hoisted inner rest).Leads s g final) :
    rest.Leads s (inner.run g.scopes.size (g.enter kind (some s) (allDeclared declared hoisted)))
      final := by
  obtain ⟨-, -, hrest, -, hdr, hir⟩ := distinct_scope h.distinct
  have hsound := h.sound.enter kind (some s) (allDeclared declared hoisted)
  have hgrows := inner.run_grows g.scopes.size hsound
  refine ⟨inner.run_sound _ hsound, ?_, h.grows, fun hi => h.placed ?_, hrest, fun i hi => ?_,
    fun i hi => h.places i (mem_positions_scope.mpr (.inr (.inr hi)))⟩
  · have hsize := hgrows.size_le
    rw [size_enter] at hsize
    exact Nat.lt_of_lt_of_le h.inside (Nat.le_trans (Nat.le_succ _) hsize)
  · exact mem_positions_scope.mpr (.inr (.inr hi))
  · exact (inner.run_bindingAt _ _ fun hi' => hir _ hi' hi).trans
      ((bindingAt_declareAll fun hi' => hdr _ hi' hi).trans
        (h.fresh i (mem_positions_scope.mpr (.inr (.inr hi)))))

/-- What the final graph knows of a scope's declarations. -/
theorem Leads.knows (h : (scope kind declared hoisted inner rest).Leads s g final) :
    Knows final (g.openScope kind (some s)) g.scopes.size (allDeclared declared hoisted) := by
  obtain ⟨-, -, -, hdi, hdr, -⟩ := distinct_scope h.distinct
  have hinner := h.insideScope
  have hgrows := inner.run_grows g.scopes.size hinner.sound
  have hall := hgrows.trans hinner.grows hgrows.size_le
  rw [size_enter] at hall
  refine knows_of_grows hall fun i hi => ?_
  exact (h.places i (mem_positions_scope.mpr (.inl hi))).trans ((rest.run_bindingAt s _
    (hdr _ hi)).trans (inner.run_bindingAt _ _ (hdi _ hi)))

end

/-- The run of an outline under the names of the final graph is the run of the outline itself, up to
names; and what did not clash before does not clash now. -/
theorem run_rename {final : ScopeGraph} (hfinal : final.WellFormed) (o : Outline) {s : ScopeId}
    {g : ScopeGraph} (h : o.Leads s g final) :
    (o.rename final).run s (final.relabel g) = final.relabel (o.run s g) ∧
      (o.NoClash → (o.rename final).NoClash) := by
  induction o generalizing s g with
  | nil => exact ⟨rfl, id⟩
  | reference name rest ih =>
    obtain ⟨hgrows, hplace⟩ := h.reference
    obtain ⟨text, id, rfl⟩ := eq_ident fun hnone => h.placed (hnone ▸ List.mem_cons_self)
    have hstep := relabel_referIn hfinal h.sound h.inside hgrows (hplace id rfl)
      (h.fresh id List.mem_cons_self)
    obtain ⟨hrun, hclash⟩ := ih h.afterReference
    refine ⟨?_, hclash⟩
    rw [rename, run, hstep, hrun]
    rfl
  | scope kind declared hoisted inner rest ih ih' =>
    obtain ⟨hdeclared, -⟩ := distinct_scope h.distinct
    have hnone : none ∉ declaredPositions (allDeclared declared hoisted) :=
      fun hi => h.placed (mem_positions_scope.mpr (.inl hi))
    have hstep := relabel_enter hfinal h.sound h.knows hnone hdeclared
    obtain ⟨hinner, hclash⟩ := ih h.insideScope
    obtain ⟨hrest, hclash'⟩ := ih' h.afterScope
    have hsize : (final.relabel g).scopes.size = g.scopes.size := rfl
    constructor
    · rw [rename, run, allDeclared_rename, hstep, hsize, hinner, hrest]
      rfl
    · rintro ⟨hnow, hin, hafter⟩
      refine ⟨?_, hclash hin, hclash' hafter⟩
      refine noClash_declared hfinal (h.knows.spec (h.sound.openScope kind (some s)) ?_ h.sound.before
        hnone hdeclared) hnow
      exact Nat.lt_of_lt_of_eq (Nat.lt_succ_self _) (Array.size_push _).symm

end Outline

end Unminify
