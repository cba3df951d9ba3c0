import Unminify.Scope.Graph

/-!
# Visible bindings

A lookup goes through the bindings that can be **seen** from a scope, the nearest first, and takes the
first that has the name (`lookup_eq`). What can be seen depends on the scopes only, and not on names.

`WellFormed` is what holds of every graph that an analysis builds: a scope has no two bindings of one
name, and every recorded reference finds its binding. `WellFormed.renameAll` says that this is still so
after any number of renames to names that were free at the time.
-/

namespace Unminify.ScopeGraph

/-! ## Lookups -/

/-- The bindings of a scope itself. -/
def own (g : ScopeGraph) (s : ScopeId) : List BindingId :=
  (g.scopes[s]?.map (·.bindings.toList)).getD []

/-- The scope around a scope. -/
def outer? (g : ScopeGraph) (s : ScopeId) : Option ScopeId := g.scopes[s]?.bind (·.parent)

/-- The bindings that can be seen from a scope, the nearest first. -/
def visible (g : ScopeGraph) (s : ScopeId) : List BindingId :=
  g.own s ++ match g.outer? s with
    | none => []
    | some p => if p < s then g.visible p else []
termination_by s

theorem isNamed_iff {g : ScopeGraph} {name : String} {b : BindingId} :
    g.isNamed name b = true ↔ ∃ x, g.bindings[b]? = some x ∧ x.name = name := by
  rw [isNamed, Option.any_eq_true]
  simp only [beq_iff_eq]

theorem isNamed_of_getElem? {g : ScopeGraph} {b : BindingId} {x : Binding}
    (hx : g.bindings[b]? = some x) (name : String) : g.isNamed name b = (x.name == name) := by
  rw [isNamed, hx, Option.any_some]

theorem mem_own {g : ScopeGraph} {s : ScopeId} {b : BindingId} :
    b ∈ g.own s ↔ ∃ scope, g.scopes[s]? = some scope ∧ b ∈ scope.bindings := by
  rw [own]
  cases g.scopes[s]? with
  | none =>
    constructor
    · intro h
      cases h
    · rintro ⟨_, h, -⟩
      cases h
  | some scope =>
    refine Iff.trans Array.mem_toList_iff ⟨fun h => ⟨scope, rfl, h⟩, ?_⟩
    rintro ⟨_, ⟨⟩, h⟩
    exact h

/-- A lookup takes the first visible binding of the name. -/
theorem lookup_eq (g : ScopeGraph) (s : ScopeId) (name : String) :
    g.lookup s name = (g.visible s).find? (g.isNamed name) := by
  induction s using Nat.strongRecOn with
  | ind s ih =>
    rw [lookup, visible, own, outer?, List.find?_append]
    cases g.scopes[s]? with
    | none => rfl
    | some scope =>
      simp only [Option.map_some, Option.getD_some, Option.bind_some, Array.find?_toList, findIn]
      cases scope.bindings.find? (g.isNamed name) with
      | some b => rfl
      | none =>
        cases scope.parent with
        | none => rfl
        | some p =>
          by_cases hp : p < s
          · simp only [if_pos hp, Option.none_or, ih p hp]
          · simp only [if_neg hp, Option.none_or, List.find?_nil]

theorem lookup_eq_none {g : ScopeGraph} {s : ScopeId} {name : String} :
    g.lookup s name = none ↔ ∀ b ∈ g.visible s, g.isNamed name b = false := by
  rw [lookup_eq, List.find?_eq_none]
  simp only [Bool.not_eq_true]

theorem own_subset_visible {g : ScopeGraph} {s : ScopeId} {b : BindingId} (hb : b ∈ g.own s) :
    b ∈ g.visible s := by
  rw [visible]
  exact List.mem_append_left _ hb

/-- A visible binding is a binding of the scope or of one around it. -/
theorem mem_visible {g : ScopeGraph} {s : ScopeId} {b : BindingId} (hb : b ∈ g.visible s) :
    ∃ t ≤ s, b ∈ g.own t := by
  induction s using Nat.strongRecOn with
  | ind s ih =>
    rw [visible, List.mem_append] at hb
    rcases hb with hb | hb
    · exact ⟨s, Nat.le_refl s, hb⟩
    · cases ho : g.outer? s with
      | none => simp only [ho, List.not_mem_nil] at hb
      | some p =>
        by_cases hp : p < s
        · simp only [ho, if_pos hp] at hb
          obtain ⟨t, ht, hb⟩ := ih p hp hb
          exact ⟨t, Nat.le_trans ht (Nat.le_of_lt hp), hb⟩
        · simp only [ho, if_neg hp, List.not_mem_nil] at hb

/-- What can be seen from a scope depends on the scopes up to it. -/
theorem visible_congr {g g' : ScopeGraph} {s : ScopeId}
    (h : ∀ t ≤ s, g'.scopes[t]? = g.scopes[t]?) : g'.visible s = g.visible s := by
  induction s using Nat.strongRecOn with
  | ind s ih =>
    rw [visible, visible, own, own, outer?, outer?, h s (Nat.le_refl s)]
    cases hscope : g.scopes[s]? with
    | none => rfl
    | some scope =>
      congr 1
      cases hp : scope.parent with
      | none => simp only [Option.bind_some, hp]
      | some p =>
        by_cases hlt : p < s
        · simp only [Option.bind_some, hp, if_pos hlt]
          exact ih p hlt fun t ht => h t (Nat.le_trans ht (Nat.le_of_lt hlt))
        · simp only [Option.bind_some, hp, if_neg hlt]

/-- Names are looked up alike in graphs that name the visible bindings alike. -/
theorem lookup_congr {g g' : ScopeGraph} {s : ScopeId} {name : String}
    (hscopes : ∀ t ≤ s, g'.scopes[t]? = g.scopes[t]?)
    (hnames : ∀ b ∈ g.visible s, g'.isNamed name b = g.isNamed name b) :
    g'.lookup s name = g.lookup s name := by
  rw [lookup_eq, lookup_eq, visible_congr hscopes]
  generalize g.visible s = visible at hnames
  induction visible with
  | nil => rfl
  | cons b bs ih =>
    rw [List.find?_cons, List.find?_cons, hnames b List.mem_cons_self,
      ih fun b' hb' => hnames b' (List.mem_cons_of_mem _ hb')]

/-! ## Well-formed graphs -/

/-- What holds of the graph of a program, also after renames. -/
structure WellFormed (g : ScopeGraph) : Prop where
  /-- The bindings of a scope say so themselves. -/
  listed : ∀ s, ∀ b ∈ g.own s, ∃ x, g.bindings[b]? = some x ∧ x.scope = s
  /-- No two bindings of a scope have one name. -/
  distinct : ∀ s, ∀ b ∈ g.own s, ∀ b' ∈ g.own s, ∀ name,
    g.isNamed name b = true → g.isNamed name b' = true → b = b'
  /-- References find their bindings. -/
  resolved : ∀ (b : BindingId) (x : Binding), g.bindings[b]? = some x →
    ∀ r ∈ x.references, g.lookup r.scope x.name = some b
  /-- No global name was given to a binding. -/
  taken : ∀ (b : BindingId) (x : Binding), g.bindings[b]? = some x → x.isRenamed = true →
    g.isGlobal x.name = false

/-- The binding of a well-formed graph that is visible from a scope. -/
theorem WellFormed.exists_of_visible {g : ScopeGraph} (hg : g.WellFormed) {s : ScopeId}
    {b : BindingId} (hb : b ∈ g.visible s) : ∃ x, g.bindings[b]? = some x := by
  obtain ⟨t, -, hb⟩ := mem_visible hb
  obtain ⟨x, hx, -⟩ := hg.listed t b hb
  exact ⟨x, hx⟩

/-- Behind a visible binding come only bindings that can be seen from where it is declared. -/
theorem WellFormed.visible_behind {g : ScopeGraph} (hg : g.WellFormed) {s : ScopeId} {b : BindingId}
    {x : Binding} (hx : g.bindings[b]? = some x) {before behind : List BindingId}
    (hsplit : g.visible s = before ++ b :: behind) : ∀ b' ∈ behind, b' ∈ g.visible x.scope := by
  induction s using Nat.strongRecOn generalizing before with
  | ind s ih =>
    intro b' hb'
    have hall := hsplit
    rw [visible] at hsplit
    rcases List.append_eq_append_iff.mp hsplit with ⟨skipped, -, hrest⟩ | ⟨mine, hown, hrest⟩
    · -- the binding belongs to a scope further out
      cases ho : g.outer? s with
      | none =>
        simp only [ho] at hrest
        exact absurd hrest.symm (List.append_ne_nil_of_right_ne_nil _ (List.cons_ne_nil _ _))
      | some p =>
        by_cases hp : p < s
        · simp only [ho, if_pos hp] at hrest
          exact ih p hp hrest b' hb'
        · simp only [ho, if_neg hp] at hrest
          exact absurd hrest.symm (List.append_ne_nil_of_right_ne_nil _ (List.cons_ne_nil _ _))
    · cases mine with
      | nil =>
        cases ho : g.outer? s with
        | none =>
          simp only [ho, List.nil_append] at hrest
          cases hrest
        | some p =>
          by_cases hp : p < s
          · simp only [ho, if_pos hp, List.nil_append] at hrest
            exact ih p hp (hrest.symm.trans (List.nil_append _).symm) b' hb'
          · simp only [ho, if_neg hp, List.nil_append] at hrest
            cases hrest
      | cons b₁ mine =>
        -- the binding is one of the scope itself
        obtain ⟨rfl, -⟩ := List.cons.inj hrest
        obtain ⟨x', hx', hscope⟩ := hg.listed s b (by
          rw [hown]
          exact List.mem_append_right _ List.mem_cons_self)
        obtain rfl : x = x' := Option.some.inj (hx.symm.trans hx')
        rw [hscope, hall]
        exact List.mem_append_right _ (List.mem_cons_of_mem _ hb')

/-! ## Free renames -/

theorem getElem?_rename (g : ScopeGraph) (b b' : BindingId) (name : String) :
    (g.rename b name).bindings[b']? =
      if b = b' then g.bindings[b']?.map ({ · with name }) else g.bindings[b']? := by
  rw [rename, Array.getElem?_modify]

theorem isNamed_rename_of_ne {g : ScopeGraph} {b b' : BindingId} (h : b ≠ b') (name name' : String) :
    (g.rename b name).isNamed name' b' = g.isNamed name' b' := by
  rw [isNamed, getElem?_rename, if_neg h, isNamed]

theorem visible_rename (g : ScopeGraph) (b : BindingId) (name : String) (s : ScopeId) :
    (g.rename b name).visible s = g.visible s :=
  visible_congr fun _ _ => rfl

/-- A binding keeps what it is when it takes its own name. -/
theorem rename_self {g : ScopeGraph} {b : BindingId} {x : Binding} (hx : g.bindings[b]? = some x) :
    g.rename b x.name = g := by
  have hsame : g.bindings.modify b ({ · with name := x.name }) = g.bindings := by
    refine Array.ext_getElem? fun i => ?_
    rw [Array.getElem?_modify]
    by_cases hi : b = i
    · subst hi
      rw [if_pos rfl, hx]
      rfl
    · rw [if_neg hi]
  rw [rename, hsame]

/-- What it takes for a name to be free for a binding. -/
theorem isNameFree_iff {g : ScopeGraph} {b : BindingId} {name : String} :
    g.isNameFree b name = true ↔ ∃ x, g.bindings[b]? = some x ∧ (x.name = name ∨
      g.isGlobal name = false ∧ g.lookup x.scope name = none ∧
        ∀ r ∈ x.references, g.lookup r.scope name = none) := by
  rw [isNameFree]
  cases g.bindings[b]? with
  | none => exact ⟨fun h => absurd h Bool.false_ne_true, fun ⟨_, h, _⟩ => (nomatch h)⟩
  | some x =>
    simp only [Bool.or_eq_true, beq_iff_eq, Bool.and_eq_true, Bool.not_eq_true',
      Option.isNone_iff_eq_none, Array.all_eq_true', Option.some.injEq, exists_eq_left', and_assoc]

/-- A name is free for a binding if it is its own, or if it is not global and no binding has it that can be
seen from the scope of the binding or from one of its references. The scopes between that scope and the
place where a hoisted declaration is written are not among them. -/
theorem isNameFree_iff_unseen {g : ScopeGraph} {b : BindingId} {name : String} :
    g.isNameFree b name = true ↔ ∃ x, g.bindings[b]? = some x ∧ (x.name = name ∨
      g.isGlobal name = false ∧ ∀ s ∈ x.scope :: x.references.toList.map (·.scope),
        ∀ b' ∈ g.visible s, g.isNamed name b' = false) := by
  simp only [isNameFree_iff, lookup_eq_none, List.forall_mem_cons, List.forall_mem_map, Array.mem_toList_iff]

section

variable {g : ScopeGraph} {b : BindingId} {x : Binding} {name : String}

/-- References find their bindings after a binding took a free name. -/
theorem WellFormed.resolved_rename (hg : g.WellFormed) (hx : g.bindings[b]? = some x)
    (hhere : g.lookup x.scope name = none)
    (hthere : ∀ r ∈ x.references, g.lookup r.scope name = none) {b' : BindingId} {x' : Binding}
    (hx' : g.bindings[b']? = some x') {r : Reference} (hr : r ∈ x'.references) :
    (g.rename b name).lookup r.scope (if b = b' then name else x'.name) = some b' := by
  have hold := hg.resolved b' x' hx' r hr
  rw [lookup_eq, List.find?_eq_some_iff_append] at hold
  obtain ⟨hnamed, before, behind, hsplit, hbefore⟩ := hold
  rw [lookup_eq, visible_rename, List.find?_eq_some_iff_append]
  by_cases hbb : b = b'
  · -- no visible binding had the name, so this one is the first that has it now
    subst hbb
    obtain rfl : x = x' := Option.some.inj (hx.symm.trans hx')
    rw [if_pos rfl]
    refine ⟨?_, before, behind, hsplit, fun a ha => ?_⟩
    · rw [isNamed, getElem?_rename, if_pos rfl, hx]
      exact beq_self_eq_true name
    · have hne : b ≠ a := by
        rintro rfl
        have hother := hbefore b ha
        rw [hnamed] at hother
        cases hother
      have hnone := lookup_eq_none.mp (hthere r hr) a (hsplit ▸ List.mem_append_left _ ha)
      rw [isNamed_rename_of_ne hne, hnone]
      rfl
  · rw [if_neg hbb]
    refine ⟨(isNamed_rename_of_ne hbb _ _).trans hnamed, before, behind, hsplit, fun a ha => ?_⟩
    by_cases hba : b = a
    · -- the new name hides nothing: what comes later is visible where the binding is declared
      subst hba
      obtain ⟨before₁, before₂, rfl⟩ := List.append_of_mem ha
      rw [List.append_assoc, List.cons_append] at hsplit
      have hseen := hg.visible_behind hx hsplit b' (List.mem_append_right _ List.mem_cons_self)
      have hother := lookup_eq_none.mp hhere b' hseen
      rw [isNamed_of_getElem? hx'] at hother
      rw [isNamed, getElem?_rename, if_pos rfl, hx]
      show (!(name == x'.name)) = true
      rw [Bool.not_eq_true', beq_eq_false_iff_ne]
      exact (beq_eq_false_iff_ne.mp hother).symm
    · rw [isNamed_rename_of_ne hba]
      exact hbefore a ha

/-- A free rename leaves a graph well-formed. -/
theorem WellFormed.rename (hg : g.WellFormed) (hfree : g.isNameFree b name = true) :
    (g.rename b name).WellFormed := by
  obtain ⟨x, hx, rfl | ⟨hglobal, hhere, hthere⟩⟩ := isNameFree_iff.mp hfree
  · rw [rename_self hx]
    exact hg
  -- in its scope, no other binding has the new name
  have halone : ∀ s, b ∈ g.own s → ∀ a ∈ g.own s, g.isNamed name a = false := by
    intro s hb a ha
    obtain ⟨x', hx', hscope⟩ := hg.listed s b hb
    obtain rfl : x = x' := Option.some.inj (hx.symm.trans hx')
    exact lookup_eq_none.mp hhere a (hscope ▸ own_subset_visible ha)
  have hnow : ∀ name', (g.rename b name).isNamed name' b = true → name = name' := by
    intro name' h
    rw [isNamed, getElem?_rename, if_pos rfl, hx] at h
    exact beq_iff_eq.mp h
  refine ⟨fun s a ha => ?_, fun s a ha a' ha' name' hn hn' => ?_, fun a y hy r hr => ?_,
    fun a y hy hrenamed => ?_⟩
  · obtain ⟨y, hy, hscope⟩ := hg.listed s a ha
    rw [getElem?_rename, hy]
    split
    · exact ⟨_, rfl, hscope⟩
    · exact ⟨y, rfl, hscope⟩
  · by_cases hab : b = a <;> by_cases hab' : b = a'
    · exact hab.symm.trans hab'
    · subst hab
      obtain rfl := hnow name' hn
      rw [isNamed_rename_of_ne hab'] at hn'
      exact absurd ((halone s ha a' ha').symm.trans hn') Bool.noConfusion
    · subst hab'
      obtain rfl := hnow name' hn'
      rw [isNamed_rename_of_ne hab] at hn
      exact absurd ((halone s ha' a ha).symm.trans hn) Bool.noConfusion
    · rw [isNamed_rename_of_ne hab] at hn
      rw [isNamed_rename_of_ne hab'] at hn'
      exact hg.distinct s a ha a' ha' name' hn hn'
  · rw [getElem?_rename] at hy
    by_cases hab : b = a
    · rw [if_pos hab] at hy
      obtain ⟨z, hz, rfl⟩ := Option.map_eq_some_iff.mp hy
      have h := hg.resolved_rename hx hhere hthere hz hr
      rwa [if_pos hab] at h
    · rw [if_neg hab] at hy
      have h := hg.resolved_rename hx hhere hthere hy hr
      rwa [if_neg hab] at h
  · rw [getElem?_rename] at hy
    by_cases hab : b = a
    · rw [if_pos hab] at hy
      obtain ⟨z, -, rfl⟩ := Option.map_eq_some_iff.mp hy
      exact hglobal
    · rw [if_neg hab] at hy
      exact hg.taken a y hy hrenamed

end

/-- Bindings renamed one after the other. -/
def renameAll (g : ScopeGraph) (rs : List (BindingId × String)) : ScopeGraph :=
  rs.foldl (fun g r => g.rename r.1 r.2) g

/-- Every name is free for its binding when its turn comes. -/
def AllFree (g : ScopeGraph) : List (BindingId × String) → Prop
  | [] => True
  | r :: rs => g.isNameFree r.1 r.2 = true ∧ (g.rename r.1 r.2).AllFree rs

instance decidableAllFree (g : ScopeGraph) (rs : List (BindingId × String)) :
    Decidable (g.AllFree rs) :=
  match rs with
  | [] => isTrue trivial
  | r :: rs =>
    have := decidableAllFree (g.rename r.1 r.2) rs
    inferInstanceAs (Decidable (_ ∧ _))

/-- Free renames leave a graph well-formed. -/
theorem WellFormed.renameAll {g : ScopeGraph} (hg : g.WellFormed) {rs : List (BindingId × String)}
    (hfree : g.AllFree rs) : (g.renameAll rs).WellFormed := by
  induction rs generalizing g with
  | nil => exact hg
  | cons r rs ih => exact ih (hg.rename hfree.1) hfree.2

end Unminify.ScopeGraph
