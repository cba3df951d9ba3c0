import Unminify.Proofs.Scope.Lookup
import Unminify.Proofs.Scope.Run

/-!
# Growth of graphs

Analysis only ever adds to a graph. A scope gets all its bindings when it is entered and none later;
bindings keep their names, scopes and references; global names stay global. `Grows` says this of two
graphs, and `Outline.run_grows` of the graphs before and after any outline.

`Outline.run_sound` says that every graph on the way is well-formed, and `Outline.run_bindingAt`
that identifiers which an outline does not name keep their bindings.
-/

namespace Unminify

/-- A later form of a binding that may have more references. -/
structure Binding.Kept (x x' : Binding) : Prop where
  name : x'.name = x.name
  declaredName : x'.declaredName = x.declaredName
  scope : x'.scope = x.scope
  references : ∀ r ∈ x.references, r ∈ x'.references

namespace ScopeGraph

/-! ## What is kept -/

/-- A graph and a later one that has the same scopes below a number. -/
structure Grows (g g' : ScopeGraph) (n : Nat) : Prop where
  scopes : ∀ s < n, g'.scopes[s]? = g.scopes[s]?
  bindings : ∀ (b : BindingId) (x : Binding), g.bindings[b]? = some x →
    ∃ x' : Binding, g'.bindings[b]? = some x' ∧ x'.declaredName = x.declaredName ∧
      ∀ r ∈ x.references, r ∈ x'.references
  globals : ∀ name, g.isGlobal name = true → g'.isGlobal name = true

theorem Grows.refl (g : ScopeGraph) (n : Nat) : g.Grows g n :=
  ⟨fun _ _ => rfl, fun _ x hx => ⟨x, hx, rfl, fun _ hr => hr⟩, fun _ h => h⟩

theorem Grows.trans {g g' g'' : ScopeGraph} {n m : Nat} (h : g.Grows g' n) (h' : g'.Grows g'' m)
    (hnm : n ≤ m) : g.Grows g'' n where
  scopes s hs := (h'.scopes s (Nat.lt_of_lt_of_le hs hnm)).trans (h.scopes s hs)
  bindings b x hx := by
    obtain ⟨x', hx', hname, hrefs⟩ := h.bindings b x hx
    obtain ⟨x'', hx'', hname', hrefs'⟩ := h'.bindings b x' hx'
    exact ⟨x'', hx'', hname'.trans hname, fun r hr => hrefs' r (hrefs r hr)⟩
  globals name hname := h'.globals name (h.globals name hname)

theorem Grows.size_le {g g' : ScopeGraph} (h : g.Grows g' g.scopes.size) :
    g.scopes.size ≤ g'.scopes.size := by
  refine Nat.le_of_not_lt fun hlt => ?_
  have hsame := h.scopes _ hlt
  rw [Array.getElem?_eq_none (Nat.le_refl _), Array.getElem?_eq_getElem hlt] at hsame
  cases hsame

/-- A well-formed graph in which bindings still have the names they were declared with. -/
structure Sound (g : ScopeGraph) : Prop extends WellFormed g where
  unrenamed : ∀ (b : BindingId) (x : Binding), g.bindings[b]? = some x → x.name = x.declaredName

/-! ## Changes to single bindings -/

/-- A graph in which one binding changed, and kept what matters. A reference is added to it only where
it is what its name stands for. -/
structure Touched (g g' : ScopeGraph) (b : BindingId) (f : Binding → Binding) : Prop where
  scopes : g'.scopes = g.scopes
  bindings : g'.bindings = g.bindings.modify b f
  globals : g'.globals = g.globals
  kept : ∀ x : Binding, x.Kept (f x)
  resolved : ∀ x : Binding, g.bindings[b]? = some x → ∀ r ∈ (f x).references,
    r ∈ x.references ∨ g.lookup r.scope x.name = some b

section

variable {g g' : ScopeGraph} {b : BindingId} {f : Binding → Binding}

theorem Touched.getElem? (h : Touched g g' b f) {b' : BindingId} {x' : Binding}
    (hx' : g'.bindings[b']? = some x') :
    ∃ x, g.bindings[b']? = some x ∧ x.Kept x' ∧ ∀ r ∈ x'.references,
      r ∈ x.references ∨ g.lookup r.scope x.name = some b' := by
  rw [h.bindings, Array.getElem?_modify] at hx'
  by_cases hb : b = b'
  · subst hb
    rw [if_pos rfl] at hx'
    obtain ⟨x, hx, rfl⟩ := Option.map_eq_some_iff.mp hx'
    exact ⟨x, hx, h.kept x, h.resolved x hx⟩
  · rw [if_neg hb] at hx'
    exact ⟨x', hx', ⟨rfl, rfl, rfl, fun _ hr => hr⟩, fun r hr => .inl hr⟩

theorem Touched.isNamed (h : Touched g g' b f) (name : String) (b' : BindingId) :
    g'.isNamed name b' = g.isNamed name b' := by
  rw [ScopeGraph.isNamed, ScopeGraph.isNamed, h.bindings, Array.getElem?_modify]
  split
  · cases g.bindings[b']? with
    | none => rfl
    | some x => exact congrArg (· == name) (h.kept x).name
  · rfl

theorem Touched.lookup (h : Touched g g' b f) (s : ScopeId) (name : String) :
    g'.lookup s name = g.lookup s name :=
  lookup_congr (fun t _ => by rw [h.scopes]) fun b' _ => h.isNamed name b'

theorem Touched.own (h : Touched g g' b f) (s : ScopeId) : g'.own s = g.own s := by
  rw [ScopeGraph.own, ScopeGraph.own, h.scopes]

theorem Touched.grows (h : Touched g g' b f) (n : Nat) : g.Grows g' n where
  scopes s _ := by rw [h.scopes]
  bindings b' x hx := by
    rw [h.bindings, Array.getElem?_modify, hx]
    split
    · exact ⟨f x, rfl, (h.kept x).declaredName, (h.kept x).references⟩
    · exact ⟨x, rfl, rfl, fun _ hr => hr⟩
  globals name hname := by rwa [isGlobal, h.globals]

theorem Touched.sound (h : Touched g g' b f) (hg : g.Sound) : g'.Sound where
  listed s b' hb' := by
    obtain ⟨x, hx, hscope⟩ := hg.listed s b' (h.own s ▸ hb')
    rw [h.bindings, Array.getElem?_modify, hx]
    split
    · exact ⟨f x, rfl, (h.kept x).scope.trans hscope⟩
    · exact ⟨x, rfl, hscope⟩
  distinct s a ha a' ha' name hn hn' := by
    rw [h.isNamed] at hn hn'
    exact hg.distinct s a (h.own s ▸ ha) a' (h.own s ▸ ha') name hn hn'
  resolved b' x' hx' r hr := by
    obtain ⟨x, hx, hkept, hrefs⟩ := h.getElem? hx'
    rw [h.lookup, hkept.name]
    rcases hrefs r hr with hr | hr
    · exact hg.resolved b' x hx r hr
    · exact hr
  taken b' x' hx' hrenamed := by
    obtain ⟨x, hx, hkept, -⟩ := h.getElem? hx'
    rw [Binding.isRenamed, hkept.name, hkept.declaredName] at hrenamed
    rw [isGlobal, h.globals, hkept.name]
    exact hg.taken b' x hx hrenamed
  unrenamed b' x' hx' := by
    obtain ⟨x, hx, hkept, -⟩ := h.getElem? hx'
    rw [hkept.name, hkept.declaredName]
    exact hg.unrenamed b' x hx

end

theorem touched_addDeclaration (g : ScopeGraph) (b : BindingId) (id : Nat) :
    Touched g (g.addDeclaration b id) b
      fun x => { x with declarations := x.declarations.push id } where
  scopes := rfl
  bindings := rfl
  globals := rfl
  kept _ := ⟨rfl, rfl, rfl, fun _ hr => hr⟩
  resolved _ _ _ hr := .inl hr

theorem touched_addReference {g : ScopeGraph} {b : BindingId} {r : Reference} {name : String}
    (hlookup : g.lookup r.scope name = some b) :
    Touched g (g.addReference b r) b fun x => { x with references := x.references.push r } where
  scopes := rfl
  bindings := rfl
  globals := rfl
  kept _ := ⟨rfl, rfl, rfl, fun _ hr => Array.mem_push_of_mem _ hr⟩
  resolved x hx r' hr' := by
    rcases Array.mem_push.mp hr' with hr' | rfl
    · exact .inl hr'
    · refine .inr ?_
      have hnamed := hlookup
      rw [lookup_eq] at hnamed
      have hfound := List.find?_some hnamed
      rw [isNamed_of_getElem? hx] at hfound
      rw [beq_iff_eq.mp hfound]
      exact hlookup

/-! ## References -/

section

variable {g : ScopeGraph} {s : ScopeId} {ident : Name}

/-- What a reference does: it is recorded with its binding, or its name is a global one. -/
theorem referIn_cases (g : ScopeGraph) (s : ScopeId) (name : String) (id : Nat) :
    (∃ b, g.lookup s name = some b ∧
      g.referIn s (.ident name (some id)) = g.addReference b { id, scope := s }) ∨
    (g.lookup s name = none ∧
      g.referIn s (.ident name (some id)) = { g with globals := g.globals.insert name }) := by
  cases h : g.lookup s name with
  | some b => exact .inl ⟨b, rfl, by simp only [referIn, h]⟩
  | none => exact .inr ⟨rfl, by simp only [referIn, h]⟩

theorem grows_insertGlobal (g : ScopeGraph) (name : String) (n : Nat) :
    g.Grows { g with globals := g.globals.insert name } n where
  scopes _ _ := rfl
  bindings _ x hx := ⟨x, hx, rfl, fun _ hr => hr⟩
  globals name' h := by
    show (g.globals.insert name).contains name' = true
    rw [Std.TreeSet.contains_insert, Bool.or_eq_true]
    exact .inr h

theorem Sound.insertGlobal (hg : g.Sound) (name : String) :
    Sound { g with globals := g.globals.insert name } where
  listed := hg.listed
  distinct := hg.distinct
  resolved b x hx r hr := by
    have hsame : ScopeGraph.lookup { g with globals := g.globals.insert name } r.scope x.name =
        g.lookup r.scope x.name := lookup_congr (fun _ _ => rfl) fun _ _ => rfl
    exact hsame.trans (hg.resolved b x hx r hr)
  taken b x hx hrenamed := by
    rw [Binding.isRenamed, bne_iff_ne] at hrenamed
    exact absurd (hg.unrenamed b x hx) hrenamed
  unrenamed := hg.unrenamed

theorem grows_referIn (g : ScopeGraph) (s : ScopeId) (ident : Name) (n : Nat) :
    g.Grows (g.referIn s ident) n := by
  unfold referIn
  split
  · split
    · exact (touched_addReference ‹_›).grows n
    · exact .refl g n
    · exact grows_insertGlobal g _ n
  · exact .refl g n

theorem Sound.referIn (hg : g.Sound) (s : ScopeId) (ident : Name) : (g.referIn s ident).Sound := by
  unfold ScopeGraph.referIn
  split
  · split
    · exact (touched_addReference ‹_›).sound hg
    · exact hg
    · exact hg.insertGlobal _
  · exact hg

theorem get?_insert_of_ne {m : Std.TreeMap Nat BindingId} {i j : Nat} (b : BindingId)
    (h : i ≠ j) : (m.insert i b).get? j = m.get? j := by
  rw [Std.TreeMap.get?_eq_getElem?, Std.TreeMap.getElem?_insert, if_neg]
  · rfl
  · rwa [Std.LawfulEqOrd.compare_eq_iff_eq]

theorem bindingAt_referIn {i : Nat} (hi : some i ≠ ident.nameId?) :
    (g.referIn s ident).bindingAt i = g.bindingAt i := by
  unfold referIn
  split
  · split
    · exact get?_insert_of_ne _ fun h => hi (congrArg some h.symm)
    · rfl
    · rfl
  · rfl

end

/-! ## Declarations -/

/-- No reference stands in a scope or after it. -/
def Before (g : ScopeGraph) (s : ScopeId) : Prop :=
  ∀ (b : BindingId) (x : Binding), g.bindings[b]? = some x → ∀ r ∈ x.references, r.scope < s

/-- References stand in scopes that there are. -/
theorem Sound.before {g : ScopeGraph} (hg : g.Sound) : g.Before g.scopes.size := by
  intro b x hx r hr
  refine Nat.lt_of_not_le fun hle => ?_
  have hlookup := hg.resolved b x hx r hr
  rw [lookup, Array.getElem?_eq_none hle] at hlookup
  cases hlookup

section

variable {g : ScopeGraph} {s : ScopeId} {name : String} {kind : BindingKind}

theorem findHere_eq (g : ScopeGraph) (s : ScopeId) (name : String) :
    g.findHere s name = (g.own s).find? (g.isNamed name) := by
  rw [findHere, own]
  cases g.scopes[s]? with
  | none => rfl
  | some scope => exact Array.find?_toList.symm

theorem getElem?_addBinding (g : ScopeGraph) (s : ScopeId) (name : String) (kind : BindingKind)
    (b : BindingId) : (g.addBinding s name kind).bindings[b]? =
      if b = g.bindings.size then some { name, declaredName := name, kind, scope := s }
      else g.bindings[b]? := by
  rw [addBinding, Array.getElem?_push]

theorem getElem?_addBinding_of_lt {b : BindingId} {x : Binding} (hx : g.bindings[b]? = some x) :
    (g.addBinding s name kind).bindings[b]? = some x := by
  have hlt := (Array.getElem?_eq_some_iff.mp hx).1
  rw [getElem?_addBinding, if_neg (Nat.ne_of_lt hlt), hx]

theorem isNamed_addBinding_of_lt {b : BindingId} {x : Binding} (hx : g.bindings[b]? = some x)
    (name' : String) : (g.addBinding s name kind).isNamed name' b = g.isNamed name' b := by
  rw [isNamed_of_getElem? (getElem?_addBinding_of_lt hx), isNamed_of_getElem? hx]

theorem scopes_addBinding {t : ScopeId} (ht : t ≠ s) :
    (g.addBinding s name kind).scopes[t]? = g.scopes[t]? := by
  rw [addBinding, Array.getElem?_modify, if_neg ht.symm]

theorem mem_own_addBinding {t : ScopeId} {b : BindingId} :
    b ∈ (g.addBinding s name kind).own t ↔
      b ∈ g.own t ∨ t = s ∧ s < g.scopes.size ∧ b = g.bindings.size := by
  by_cases ht : t = s
  · subst ht
    rw [mem_own, mem_own, addBinding, Array.getElem?_modify, if_pos rfl]
    cases hscope : g.scopes[t]? with
    | none =>
      have hle := Array.getElem?_eq_none_iff.mp hscope
      constructor
      · rintro ⟨_, h, -⟩
        cases h
      · rintro (⟨_, h, -⟩ | ⟨-, hlt, -⟩)
        · cases h
        · exact absurd hlt (Nat.not_lt_of_le hle)
    | some scope =>
      have hlt := (Array.getElem?_eq_some_iff.mp hscope).1
      simp only [Option.map_some, Option.some.injEq, exists_eq_left', Array.mem_push, true_and, hlt]
  · rw [own, scopes_addBinding ht]
    exact ⟨.inl, fun h => h.elim id fun h => absurd h.1 ht⟩

theorem grows_addBinding (g : ScopeGraph) (s : ScopeId) (name : String) (kind : BindingKind) :
    g.Grows (g.addBinding s name kind) s where
  scopes _ ht := scopes_addBinding (Nat.ne_of_lt ht)
  bindings _ x hx := ⟨x, getElem?_addBinding_of_lt hx, rfl, fun _ hr => hr⟩
  globals _ h := h

theorem Before.addBinding (h : g.Before s) : (g.addBinding s name kind).Before s := by
  intro b x hx r hr
  rw [getElem?_addBinding] at hx
  split at hx
  · cases hx
    cases Array.not_mem_empty r hr
  · exact h b x hx r hr

theorem Sound.addBinding (hg : g.Sound) (hs : g.Before s) (hnew : g.findHere s name = none) :
    (g.addBinding s name kind).Sound := by
  rw [findHere_eq, List.find?_eq_none] at hnew
  have hfresh : ∀ name', (g.addBinding s name kind).isNamed name' g.bindings.size = true →
      name = name' := by
    intro name' h
    rw [isNamed, getElem?_addBinding, if_pos rfl] at h
    exact beq_iff_eq.mp h
  -- a binding of the scope that has the new name would have been found
  have hclash : ∀ b ∈ g.own s, (g.addBinding s name kind).isNamed name b ≠ true := by
    intro b hb
    obtain ⟨x, hx, -⟩ := hg.listed s b hb
    rw [isNamed_addBinding_of_lt hx]
    exact hnew b hb
  refine ⟨⟨fun t b hb => ?_, fun t b hb b' hb' name' hn hn' => ?_, fun b x hx r hr => ?_,
    fun b x hx hrenamed => ?_⟩, fun b x hx => ?_⟩
  · rcases mem_own_addBinding.mp hb with hb | ⟨rfl, -, rfl⟩
    · obtain ⟨x, hx, hscope⟩ := hg.listed t b hb
      exact ⟨x, getElem?_addBinding_of_lt hx, hscope⟩
    · rw [getElem?_addBinding, if_pos rfl]
      exact ⟨_, rfl, rfl⟩
  · rcases mem_own_addBinding.mp hb with hold | ⟨rfl, -, rfl⟩ <;>
      rcases mem_own_addBinding.mp hb' with hold' | ⟨ht, -, rfl⟩
    · obtain ⟨x, hx, -⟩ := hg.listed t b hold
      obtain ⟨x', hx', -⟩ := hg.listed t b' hold'
      rw [isNamed_addBinding_of_lt hx] at hn
      rw [isNamed_addBinding_of_lt hx'] at hn'
      exact hg.distinct t b hold b' hold' name' hn hn'
    · subst ht
      obtain rfl := hfresh name' hn'
      exact absurd hn (hclash b hold)
    · obtain rfl := hfresh name' hn
      exact absurd hn' (hclash b' hold')
    · rfl
  · rw [getElem?_addBinding] at hx
    split at hx
    · cases hx
      cases Array.not_mem_empty r hr
    · rw [lookup_congr fun t ht => scopes_addBinding (Nat.ne_of_lt (Nat.lt_of_le_of_lt ht
        (hs b x hx r hr)))]
      · exact hg.resolved b x hx r hr
      · intro b' hb'
        obtain ⟨x', hx'⟩ := hg.exists_of_visible hb'
        exact isNamed_addBinding_of_lt hx' _
  · rw [getElem?_addBinding] at hx
    split at hx
    · cases hx
      rw [Binding.isRenamed, bne_self_eq_false] at hrenamed
      cases hrenamed
    · exact hg.taken b x hx hrenamed
  · rw [getElem?_addBinding] at hx
    split at hx
    · cases hx
      rfl
    · exact hg.unrenamed b x hx

/-- What a declaration does: it adds to the binding of its name in the scope, which is new if there
was none. -/
theorem declareIn_eq (g : ScopeGraph) (s : ScopeId) (name : String) (id : Nat) (kind : BindingKind) :
    g.declareIn s (.ident name (some id), kind) =
      (g.bound s name kind).1.addDeclaration (g.bound s name kind).2 id := rfl

theorem grows_bound (g : ScopeGraph) (s : ScopeId) (name : String) (kind : BindingKind) :
    g.Grows (g.bound s name kind).1 s := by
  rw [bound]
  split
  · exact .refl g s
  · exact grows_addBinding g s name kind

theorem grows_declareIn (g : ScopeGraph) (s : ScopeId) (d : Name × BindingKind) :
    g.Grows (g.declareIn s d) s := by
  unfold declareIn
  split
  · exact (grows_bound g s _ _).trans ((touched_addDeclaration _ _ _).grows s) (Nat.le_refl s)
  · exact grows_bound g s _ _
  · exact .refl g s

theorem Sound.bound (hg : g.Sound) (hs : g.Before s) (name : String) (kind : BindingKind) :
    (g.bound s name kind).1.Sound := by
  rw [ScopeGraph.bound]
  split
  · exact hg
  · exact hg.addBinding hs ‹_›

theorem Sound.declareIn (hg : g.Sound) (hs : g.Before s) (d : Name × BindingKind) :
    (g.declareIn s d).Sound := by
  unfold ScopeGraph.declareIn
  split
  · exact (touched_addDeclaration _ _ _).sound (hg.bound hs _ _)
  · exact hg.bound hs _ _
  · exact hg

theorem Before.declareIn (h : g.Before s) (d : Name × BindingKind) : (g.declareIn s d).Before s := by
  have hbound : ∀ name kind, (g.bound s name kind).1.Before s := by
    intro name kind
    rw [bound]
    split
    · exact h
    · exact h.addBinding
  unfold ScopeGraph.declareIn
  split
  · intro b x hx r hr
    rw [addDeclaration, Array.getElem?_modify] at hx
    split at hx
    · obtain ⟨y, hy, rfl⟩ := Option.map_eq_some_iff.mp hx
      exact hbound _ _ b y hy r hr
    · exact hbound _ _ b x hx r hr
  · exact hbound _ _
  · exact h

theorem bindingAt_declareIn {d : Name × BindingKind} {i : Nat} (hi : some i ≠ d.1.nameId?) :
    (g.declareIn s d).bindingAt i = g.bindingAt i := by
  have hbound : ∀ name kind, (g.bound s name kind).1.bindingAt i = g.bindingAt i := by
    intro name kind
    rw [bound]
    split <;> rfl
  obtain ⟨ident, kind⟩ := d
  unfold ScopeGraph.declareIn
  split
  next name id heq =>
    cases heq
    exact (get?_insert_of_ne _ fun h => hi (congrArg some h.symm)).trans (hbound _ _)
  next => exact hbound _ _
  next => rfl

/-! ## Scopes -/

theorem grows_openScope (g : ScopeGraph) (kind : ScopeKind) (parent : Option ScopeId) :
    g.Grows (g.openScope kind parent) g.scopes.size where
  scopes s hs := by rw [openScope, Array.getElem?_push, if_neg (Nat.ne_of_lt hs)]
  bindings _ x hx := ⟨x, hx, rfl, fun _ hr => hr⟩
  globals _ h := h

theorem own_openScope {kind : ScopeKind} {parent : Option ScopeId} {t : ScopeId} {b : BindingId}
    (hb : b ∈ (g.openScope kind parent).own t) : b ∈ g.own t := by
  obtain ⟨scope, hscope, hb⟩ := mem_own.mp hb
  rw [openScope, Array.getElem?_push] at hscope
  split at hscope
  · cases hscope
    cases Array.not_mem_empty b hb
  · exact mem_own.mpr ⟨scope, hscope, hb⟩

theorem Sound.openScope (hg : g.Sound) (kind : ScopeKind) (parent : Option ScopeId) :
    (g.openScope kind parent).Sound where
  listed t b hb := hg.listed t b (own_openScope hb)
  distinct t b hb b' hb' := hg.distinct t b (own_openScope hb) b' (own_openScope hb')
  resolved b x hx r hr := by
    have hlt := hg.before b x hx r hr
    rw [lookup_congr fun t ht => (grows_openScope g kind parent).scopes t (Nat.lt_of_le_of_lt ht hlt)]
    · exact hg.resolved b x hx r hr
    · exact fun _ _ => rfl
  taken := hg.taken
  unrenamed := hg.unrenamed

/-- Declarations in a scope that is not yet referred from. -/
theorem sound_declareAll {ds : List (Name × BindingKind)} (hg : g.Sound) (hs : g.Before s) :
    (ds.foldl (·.declareIn s ·) g).Sound ∧ g.Grows (ds.foldl (·.declareIn s ·) g) s := by
  induction ds generalizing g with
  | nil => exact ⟨hg, .refl g s⟩
  | cons d ds ih =>
    obtain ⟨hsound, hgrows⟩ := ih (hg.declareIn hs d) (hs.declareIn d)
    exact ⟨hsound, (grows_declareIn g s d).trans hgrows (Nat.le_refl s)⟩

theorem Sound.enter (hg : g.Sound) (kind : ScopeKind) (parent : Option ScopeId)
    (ds : List (Name × BindingKind)) : (g.enter kind parent ds).Sound :=
  (sound_declareAll (hg.openScope kind parent) hg.before).1

theorem Sound.grows_enter (hg : g.Sound) (kind : ScopeKind) (parent : Option ScopeId)
    (ds : List (Name × BindingKind)) : g.Grows (g.enter kind parent ds) g.scopes.size :=
  (grows_openScope g kind parent).trans (sound_declareAll (hg.openScope kind parent) hg.before).2
    (Nat.le_refl _)

theorem bindingAt_declareAll {ds : List (Name × BindingKind)} {i : Nat}
    (hi : some i ∉ ds.map (·.1.nameId?)) :
    (ds.foldl (·.declareIn s ·) g).bindingAt i = g.bindingAt i := by
  induction ds generalizing g with
  | nil => rfl
  | cons d ds ih =>
    rw [List.map_cons, List.mem_cons, not_or] at hi
    exact (ih hi.2).trans (bindingAt_declareIn hi.1)

end

end ScopeGraph

/-! ## Runs -/

namespace Outline

open ScopeGraph

/-- The positions of the names of an outline. -/
def positions (o : Outline) : List (Option Nat) := o.names.map Tree.nameId?

theorem positions_scope (kind : ScopeKind) (declared : List (Name × BindingKind))
    (hoisted : List Name) (inner rest : Outline) :
    (scope kind declared hoisted inner rest).positions =
      (allDeclared declared hoisted).map (·.1.nameId?) ++ inner.positions ++ rest.positions := by
  simp only [positions, names, List.map_append, List.map_map, Function.comp_def]

/-- What an outline does to a sound graph. -/
theorem run_sound_grows (o : Outline) (s : ScopeId) {g : ScopeGraph} (hg : g.Sound) :
    (o.run s g).Sound ∧ g.Grows (o.run s g) g.scopes.size := by
  induction o generalizing s g with
  | nil => exact ⟨hg, .refl g _⟩
  | reference name rest ih =>
    have hstep := grows_referIn g s name g.scopes.size
    obtain ⟨hsound, hgrows⟩ := ih s (hg.referIn s name)
    exact ⟨hsound, hstep.trans hgrows hstep.size_le⟩
  | scope kind declared hoisted inner rest ih ih' =>
    have hstep := hg.grows_enter kind (some s) (allDeclared declared hoisted)
    obtain ⟨hsound, hgrows⟩ := ih g.scopes.size (hg.enter kind (some s) (allDeclared declared hoisted))
    obtain ⟨hsound', hgrows'⟩ := ih' s hsound
    have hboth := hstep.trans hgrows hstep.size_le
    exact ⟨hsound', hboth.trans hgrows' hboth.size_le⟩

theorem run_sound (o : Outline) (s : ScopeId) {g : ScopeGraph} (hg : g.Sound) : (o.run s g).Sound :=
  (o.run_sound_grows s hg).1

theorem run_grows (o : Outline) (s : ScopeId) {g : ScopeGraph} (hg : g.Sound) :
    g.Grows (o.run s g) g.scopes.size :=
  (o.run_sound_grows s hg).2

/-- An identifier that an outline does not name stands for what it stood for. -/
theorem run_bindingAt (o : Outline) (s : ScopeId) (g : ScopeGraph) {i : Nat}
    (hi : some i ∉ o.positions) : (o.run s g).bindingAt i = g.bindingAt i := by
  induction o generalizing s g with
  | nil => rfl
  | reference name rest ih =>
    rw [positions, names, List.map_cons, List.mem_cons, not_or] at hi
    exact (ih s _ hi.2).trans (bindingAt_referIn hi.1)
  | scope kind declared hoisted inner rest ih ih' =>
    rw [positions_scope, List.mem_append, List.mem_append, not_or, not_or] at hi
    refine (ih' s _ hi.2).trans ((ih _ _ hi.1.2).trans ?_)
    exact bindingAt_declareAll hi.1.1

end Outline

end Unminify
