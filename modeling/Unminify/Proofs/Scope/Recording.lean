import Unminify.Proofs.Scope.Growth

/-!
# What graphs record

Analysis makes a graph in steps: it opens scopes, declares identifiers and refers to them. A binding
records the positions of the identifiers that declare it and of those that refer to it, and the graph
has the binding of every recorded identifier by its position.

`Records` ties the three together: as long as no position comes twice, an identifier is recorded once,
with the binding that the graph has for it, which was declared under its name; only a reference can
go without a binding, and then its name is a global one. `Records.replay` says so of every graph that
is made in steps.
-/

namespace Unminify

/-- How often a binding records an identifier, as a declaration or as a reference. -/
def Binding.recordings (x : Binding) (i : Nat) : Nat :=
  x.declarations.toList.count i + (x.references.toList.map (·.id)).count i

theorem Binding.recordings_declaration (x : Binding) (i j : Nat) :
    Binding.recordings { x with declarations := x.declarations.push i } j =
      x.recordings j + if i = j then 1 else 0 := by
  simp only [recordings, Array.toList_push, List.count_append, List.count_singleton, beq_iff_eq]
  omega

theorem Binding.recordings_reference (x : Binding) (r : Reference) (j : Nat) :
    Binding.recordings { x with references := x.references.push r } j =
      x.recordings j + if r.id = j then 1 else 0 := by
  simp only [recordings, Array.toList_push, List.map_append, List.map_cons, List.map_nil,
    List.count_append, List.count_singleton, beq_iff_eq]
  omega

namespace ScopeGraph

/-- A step in the making of a graph. -/
inductive Step
  | opens (kind : ScopeKind) (parent : Option ScopeId)
  | declares (scope : ScopeId) (ident : Name) (kind : BindingKind)
  | refers (scope : ScopeId) (ident : Name)

/-- The identifier that a step is about. -/
def Step.name? : Step → Option Name
  | opens _ _ => none
  | declares _ ident _ => some ident
  | refers _ ident => some ident

/-- The identifier that a step refers to. -/
def Step.referred? : Step → Option Name
  | refers _ ident => some ident
  | _ => none

/-- The graph after a step. -/
def step (g : ScopeGraph) : Step → ScopeGraph
  | .opens kind parent => g.openScope kind parent
  | .declares s ident kind => g.declareIn s (ident, kind)
  | .refers s ident => g.referIn s ident

/-- The graph after several steps. -/
def replay (g : ScopeGraph) (steps : List Step) : ScopeGraph := steps.foldl step g

/-- The identifiers that steps are about. -/
def named (steps : List Step) : List Name := steps.filterMap Step.name?

/-- The identifiers that steps refer to. -/
def referred (steps : List Step) : List Name := steps.filterMap Step.referred?

/-- A graph records these identifiers, some of which are references. -/
structure Records (g : ScopeGraph) (names refs : List Name) : Prop where
  unrenamed : ∀ (b : BindingId) (x : Binding), g.bindings[b]? = some x → x.name = x.declaredName
  /-- A binding records the identifiers whose binding it is, each once, and no others. -/
  once : ∀ (b : BindingId) (x : Binding), g.bindings[b]? = some x → ∀ i,
    x.recordings i = if g.bindingAt i = some b then 1 else 0
  /-- A binding is that of an identifier with its name. -/
  owned : ∀ i b, g.bindingAt i = some b → ∃ x, g.bindings[b]? = some x ∧
    ∃ n ∈ names, n.nameId? = some i ∧ n.nameText? = some x.declaredName
  /-- Only references go without a binding. -/
  unbound : ∀ n ∈ names, ∀ i, n.nameId? = some i → g.bindingAt i = none →
    n ∈ refs ∧ ∀ text, n.nameText? = some text → g.isGlobal text = true

section

variable {g g' : ScopeGraph} {names refs : List Name}

/-- Nothing is recorded in a graph without bindings. -/
theorem records_empty : Records empty [] [] where
  unrenamed _ _ hx := nomatch hx
  once _ _ hx := nomatch hx
  owned _ _ h := nomatch h
  unbound _ hn := nomatch hn

/-- An identifier whose position is not among the recorded ones has no binding. -/
theorem Records.bindingAt_eq_none (h : g.Records names refs) {i : Nat}
    (hi : some i ∉ names.map Tree.nameId?) : g.bindingAt i = none := by
  refine Option.eq_none_iff_forall_ne_some.mpr fun b hb => ?_
  obtain ⟨-, -, n, hn, hid, -⟩ := h.owned i b hb
  exact hi (hid ▸ List.mem_map_of_mem hn)

/-- A graph with the same bindings records the same. -/
theorem Records.congr (h : g.Records names refs) (hbindings : g'.bindings = g.bindings)
    (hoccurrences : g'.occurrences = g.occurrences) (hglobals : g'.globals = g.globals) :
    g'.Records names refs := by
  cases g
  cases g'
  cases hbindings
  cases hoccurrences
  cases hglobals
  exact ⟨h.unrenamed, h.once, h.owned, h.unbound⟩

theorem get?_insert_self (m : Std.TreeMap Nat BindingId) (i : Nat) (b : BindingId) :
    (m.insert i b).get? i = some b := by
  rw [Std.TreeMap.get?_eq_getElem?, Std.TreeMap.getElem?_insert_self]

/-- An identifier is recorded with a binding of its name. -/
theorem Records.record {b : BindingId} {f : Binding → Binding} {x : Binding} {i : Nat} {text : String}
    {refs' : List Name} (h : g.Records names refs) (htouched : Touched g g' b f)
    (hoccurrences : g'.occurrences = g.occurrences.insert i b)
    (hcount : ∀ x j, (f x).recordings j = x.recordings j + if i = j then 1 else 0)
    (hx : g.bindings[b]? = some x) (hname : x.name = text) (hi : some i ∉ names.map Tree.nameId?)
    (hrefs : ∀ n ∈ refs, n ∈ refs') :
    g'.Records (names ++ [.ident text (some i)]) refs' := by
  have hself : g'.bindingAt i = some b := by
    rw [bindingAt, hoccurrences, get?_insert_self]
  have hother : ∀ j, i ≠ j → g'.bindingAt j = g.bindingAt j := by
    intro j hj
    rw [bindingAt, hoccurrences, get?_insert_of_ne b hj, bindingAt]
  have hbinding : ∀ b', g'.bindings[b']? = if b = b' then g.bindings[b']?.map f else g.bindings[b']? := by
    intro b'
    rw [htouched.bindings, Array.getElem?_modify]
  have hfresh := h.bindingAt_eq_none hi
  refine ⟨fun b' x' hx' => ?_, fun b' x' hx' j => ?_, fun j b' hj => ?_, fun n hn j hj hnone => ?_⟩
  · obtain ⟨y, hy, hkept, -⟩ := htouched.getElem? hx'
    rw [hkept.name, hkept.declaredName]
    exact h.unrenamed b' y hy
  · rw [hbinding] at hx'
    by_cases hb : b = b'
    · subst hb
      rw [if_pos rfl, hx] at hx'
      cases hx'
      rw [hcount, h.once b x hx]
      by_cases hij : i = j
      · subst hij
        rw [hself, hfresh]
        simp
      · rw [hother j hij]
        simp [hij]
    · rw [if_neg hb] at hx'
      rw [h.once b' x' hx']
      by_cases hij : i = j
      · subst hij
        rw [hself, hfresh]
        simp [hb]
      · rw [hother j hij]
  · by_cases hij : i = j
    · subst hij
      obtain rfl := Option.some.inj (hself.symm.trans hj)
      refine ⟨f x, by rw [hbinding, if_pos rfl, hx, Option.map_some], .ident text (some i), ?_, rfl, ?_⟩
      · exact List.mem_append_right _ List.mem_cons_self
      · rw [(htouched.kept x).declaredName, ← h.unrenamed b x hx, hname]
        rfl
    · rw [hother j hij] at hj
      obtain ⟨y, hy, n, hn, hid, htext⟩ := h.owned j b' hj
      refine ⟨if b = b' then f y else y, ?_, n, List.mem_append_left _ hn, hid, ?_⟩
      · rw [hbinding, hy]
        split <;> rfl
      · rw [htext]
        split
        · rw [(htouched.kept y).declaredName]
        · rfl
  · have hij : i ≠ j := by
      rintro rfl
      rw [hself] at hnone
      cases hnone
    rcases List.mem_append.mp hn with hn | hn
    · rw [hother j hij] at hnone
      obtain ⟨href, hglobal⟩ := h.unbound n hn j hj hnone
      refine ⟨hrefs n href, fun text htext => ?_⟩
      rw [isGlobal, htouched.globals]
      exact hglobal text htext
    · obtain rfl := List.mem_singleton.mp hn
      exact absurd (Option.some.inj hj) hij

/-- A new binding records nothing yet. -/
theorem Records.addBinding (h : g.Records names refs) (s : ScopeId) (name : String)
    (kind : BindingKind) : (g.addBinding s name kind).Records names refs where
  unrenamed b x hx := by
    rw [getElem?_addBinding] at hx
    split at hx
    · cases hx
      rfl
    · exact h.unrenamed b x hx
  once b x hx i := by
    rw [getElem?_addBinding] at hx
    show _ = if g.bindingAt i = some b then 1 else 0
    split at hx
    next hb =>
      subst hb
      cases hx
      rw [if_neg]
      · rfl
      · intro hi
        obtain ⟨y, hy, -⟩ := h.owned i _ hi
        exact Nat.lt_irrefl _ (Array.getElem?_eq_some_iff.mp hy).1
    next => exact h.once b x hx i
  owned i b hi := by
    obtain ⟨x, hx, hn⟩ := h.owned i b hi
    exact ⟨x, getElem?_addBinding_of_lt hx, hn⟩
  unbound := h.unbound

theorem Records.bound (h : g.Records names refs) (s : ScopeId) (name : String) (kind : BindingKind) :
    (g.bound s name kind).1.Records names refs := by
  rw [ScopeGraph.bound]
  split
  · exact h
  · exact h.addBinding s name kind

/-- The binding that a name gets in a scope has that name. -/
theorem getElem?_bound (g : ScopeGraph) (s : ScopeId) (name : String) (kind : BindingKind) :
    ∃ x, (g.bound s name kind).1.bindings[(g.bound s name kind).2]? = some x ∧ x.name = name := by
  rw [bound]
  split
  next b hb =>
    rw [findHere_eq] at hb
    exact isNamed_iff.mp (List.find?_some hb)
  next => exact ⟨_, by rw [getElem?_addBinding, if_pos rfl], rfl⟩

theorem Records.declareIn (h : g.Records names refs) (s : ScopeId) (text : String) (kind : BindingKind)
    {i : Nat} (hi : some i ∉ names.map Tree.nameId?) :
    (g.declareIn s (.ident text (some i), kind)).Records (names ++ [.ident text (some i)]) refs := by
  obtain ⟨x, hx, hname⟩ := g.getElem?_bound s text kind
  exact (h.bound s text kind).record (touched_addDeclaration _ _ i) rfl
    (fun x j => x.recordings_declaration i j) hx hname hi fun _ hn => hn

/-- A reference that resolves to nothing makes its name a global one. -/
theorem Records.insertGlobal (h : g.Records names refs) (text : String) (i : Nat) :
    Records { g with globals := g.globals.insert text } (names ++ [.ident text (some i)])
      (refs ++ [.ident text (some i)]) where
  unrenamed := h.unrenamed
  once := h.once
  owned j b hj := by
    obtain ⟨x, hx, n, hn, hid, htext⟩ := h.owned j b hj
    exact ⟨x, hx, n, List.mem_append_left _ hn, hid, htext⟩
  unbound n hn j hj hnone := by
    rcases List.mem_append.mp hn with hn | hn
    · obtain ⟨href, hglobal⟩ := h.unbound n hn j hj hnone
      refine ⟨List.mem_append_left _ href, fun text' htext => ?_⟩
      exact (grows_insertGlobal g text 0).globals text' (hglobal text' htext)
    · obtain rfl := List.mem_singleton.mp hn
      refine ⟨List.mem_append_right _ List.mem_cons_self, fun text' htext => ?_⟩
      obtain rfl := Option.some.inj htext
      exact Std.TreeSet.contains_insert_self

theorem Records.referIn (h : g.Records names refs) (s : ScopeId) (text : String) {i : Nat}
    (hi : some i ∉ names.map Tree.nameId?) :
    (g.referIn s (.ident text (some i))).Records (names ++ [.ident text (some i)])
      (refs ++ [.ident text (some i)]) := by
  rcases g.referIn_cases s text i with ⟨b, hlookup, heq⟩ | ⟨-, heq⟩ <;> rw [heq]
  · have hnamed := hlookup
    rw [lookup_eq] at hnamed
    obtain ⟨x, hx, hname⟩ := isNamed_iff.mp (List.find?_some hnamed)
    exact h.record (touched_addReference hlookup) rfl
      (fun x j => x.recordings_reference { id := i, scope := s } j) hx hname hi
      fun n hn => List.mem_append_left _ hn
  · exact h.insertGlobal text i

/-- A step records the identifier that it is about, if that has a position of its own. -/
theorem Records.step (h : g.Records names refs) (st : Step)
    (hplaced : ∀ n, st.name? = some n → n.nameId? ≠ none)
    (hfresh : ∀ n, st.name? = some n → n.nameId? ∉ names.map Tree.nameId?) :
    (g.step st).Records (names ++ st.name?.toList) (refs ++ st.referred?.toList) := by
  cases st with
  | opens kind parent =>
    simp only [Step.name?, Step.referred?, Option.toList_none, List.append_nil]
    exact h.congr rfl rfl rfl
  | declares s n kind =>
    have hp := hplaced n rfl
    have hf := hfresh n rfl
    rcases n with ⟨text, _ | i⟩ | index
    · exact absurd rfl hp
    · simp only [Step.referred?, Option.toList_none, List.append_nil]
      exact h.declareIn s text kind hf
    · exact absurd rfl hp
  | refers s n =>
    have hp := hplaced n rfl
    have hf := hfresh n rfl
    rcases n with ⟨text, _ | i⟩ | index
    · exact absurd rfl hp
    · exact h.referIn s text hf
    · exact absurd rfl hp

theorem named_append (steps steps' : List Step) :
    named (steps ++ steps') = named steps ++ named steps' := List.filterMap_append

theorem referred_append (steps steps' : List Step) :
    referred (steps ++ steps') = referred steps ++ referred steps' := List.filterMap_append

theorem filterMap_cons_toList {α β : Type} (f : α → Option β) (x : α) (xs : List α) :
    (x :: xs).filterMap f = (f x).toList ++ xs.filterMap f := by
  rw [List.filterMap_cons]
  cases f x <;> rfl

/-- Steps record the identifiers that they are about, if those have different positions. -/
theorem Records.replay (h : g.Records names refs) {steps : List Step}
    (hplaced : none ∉ (named steps).map Tree.nameId?)
    (hdistinct : ((names ++ named steps).map Tree.nameId?).Nodup) :
    (g.replay steps).Records (names ++ named steps) (refs ++ referred steps) := by
  induction steps generalizing g names refs with
  | nil =>
    simp only [named, referred, List.filterMap_nil, List.append_nil]
    exact h
  | cons st steps ih =>
    have hnamed : named (st :: steps) = st.name?.toList ++ named steps := filterMap_cons_toList _ _ _
    have hreferred : referred (st :: steps) = st.referred?.toList ++ referred steps :=
      filterMap_cons_toList _ _ _
    rw [hnamed] at hplaced hdistinct
    rw [hnamed, hreferred, ← List.append_assoc, ← List.append_assoc]
    rw [← List.append_assoc] at hdistinct
    rw [List.map_append, List.mem_append, not_or] at hplaced
    refine ih (h.step st (fun n hn hid => hplaced.1 ?_) fun n hn hmem => ?_) hplaced.2 hdistinct
    · rw [hn, ← hid]
      exact List.mem_cons_self
    · rw [hn, List.map_append, List.map_append] at hdistinct
      have hdisjoint := (List.nodup_append.mp (List.nodup_append.mp hdistinct).1).2.2
      exact hdisjoint _ hmem _ List.mem_cons_self rfl

end

end ScopeGraph

end Unminify
