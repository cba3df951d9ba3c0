import Mathlib.Data.List.Nodup
import Unminify.Command.Run
import Unminify.Proofs.Rule.Compiled

/-!
# Layers of settings

Taking a rule out of a table fails if there is no rule of that name, so it fails when the same name is
taken out twice. Names come from any number of layers and from the command line, and they may repeat.
What makes a repetition harmless is that a name is only added to the disabled ones if it is not among
them (`nodup_disabled`), and what makes the order of the layers harmless is that all rules are put into
the table before any is taken out.

`ofSettings_layers` says which settings give a table, and which table that is.
-/

namespace Unminify

/-! ## Disabled names -/

namespace Settings

theorem mem_addNew {names : List String} {name other : String} :
    other ∈ addNew names name ↔ other ∈ names ∨ other = name := by
  unfold addNew
  split
  next hmem =>
    refine ⟨.inl, fun h => h.elim id ?_⟩
    rintro rfl
    exact List.contains_iff_mem.mp hmem
  next => rw [List.mem_append, List.mem_singleton]

theorem nodup_addNew {names : List String} (h : names.Nodup) (name : String) : (addNew names name).Nodup := by
  unfold addNew
  split
  next => exact h
  next hmem =>
    refine h.append (List.nodup_singleton name) ?_
    rw [List.disjoint_singleton]
    exact fun hname => hmem (List.contains_iff_mem.mpr hname)

theorem mem_foldl_addNew {names : List String} (more : List String) {other : String} :
    other ∈ more.foldl addNew names ↔ other ∈ names ∨ other ∈ more := by
  induction more generalizing names with
  | nil => simp
  | cons name more ih => rw [List.foldl_cons, ih, mem_addNew, List.mem_cons, or_assoc]

theorem nodup_foldl_addNew {names : List String} (h : names.Nodup) (more : List String) :
    (more.foldl addNew names).Nodup := by
  induction more generalizing names with
  | nil => exact h
  | cons name more ih => exact ih (nodup_addNew h name)

/-- What layers of settings have in their lists. -/
theorem merged (s : Settings) (layers : List Settings) :
    (layers.foldl merge s).rules = s.rules ++ layers.flatMap (·.rules) ∧
      (∀ name, name ∈ (layers.foldl merge s).disabled ↔
        name ∈ s.disabled ∨ ∃ layer ∈ layers, name ∈ layer.disabled) ∧
      (s.disabled.Nodup → (layers.foldl merge s).disabled.Nodup) := by
  induction layers generalizing s with
  | nil => simp
  | cons layer layers ih =>
    obtain ⟨hrules, hmem, hnodup⟩ := ih (s.merge layer)
    refine ⟨?_, fun name => ?_, fun h => hnodup (nodup_foldl_addNew h _)⟩
    · rw [List.foldl_cons, hrules, merge, List.append_assoc, List.flatMap_cons]
    · rw [List.foldl_cons, hmem, merge, mem_foldl_addNew]
      simp only [List.mem_cons, exists_eq_or_imp, or_assoc]

end Settings

/-! ## Rules as they are written -/

/-- The texts of a rule compile, to patterns of one shape. -/
def RuleSpec.Compiles (spec : RuleSpec) : Prop :=
  ∃ pattern replacement, Pattern.compile spec.pattern = .ok pattern ∧
    Pattern.compile spec.replacement = .ok replacement ∧ pattern.isExpr = replacement.isExpr

/-- Some rules as they are written compile to these rules, one by one. -/
abbrev RuleSpec.CompileTo (specs : List RuleSpec) (rules : List Rule) : Prop :=
  List.Forall₂ (fun spec r => Rule.ofSpec spec = .ok r) specs rules

theorem Rule.name_ofSpec {spec : RuleSpec} {r : Rule} (h : ofSpec spec = .ok r) : r.name = spec.name := by
  unfold ofSpec ofPatterns at h
  split at h
  next => cases h
  next pattern _ =>
    split at h
    next => cases h
    next replacement _ =>
      split at h
      next => cases h; rfl
      next => cases h

theorem RuleSpec.compiles_iff {spec : RuleSpec} : spec.Compiles ↔ ∃ r, Rule.ofSpec spec = .ok r := by
  unfold Compiles Rule.ofSpec
  generalize Pattern.compile spec.pattern = pattern?
  generalize Pattern.compile spec.replacement = replacement?
  cases pattern? with
  | error e => simp
  | ok pattern =>
    cases replacement? with
    | error e => simp
    | ok replacement =>
      by_cases hagree : pattern.isExpr = replacement.isExpr
      · simp [Rule.ofPatterns, hagree]
      · simp [Rule.ofPatterns, hagree]

namespace RuleSpec.CompileTo

variable {specs : List RuleSpec} {rules : List Rule}

theorem map_name (h : CompileTo specs rules) : rules.map (·.name) = specs.map (·.name) := by
  induction h with
  | nil => rfl
  | cons hr _ ih => rw [List.map_cons, List.map_cons, Rule.name_ofSpec hr, ih]

/-- The same, said of the outcomes of compiling. -/
theorem iff_map : CompileTo specs rules ↔
    specs.map (fun spec => (Rule.ofSpec spec).toOption) = rules.map some := by
  have hone (spec : RuleSpec) (r : Rule) : (Rule.ofSpec spec).toOption = some r ↔ Rule.ofSpec spec = .ok r := by
    cases Rule.ofSpec spec <;> simp [Except.toOption]
  rw [← List.forall₂_eq_eq_eq, List.forall₂_map_left_iff, List.forall₂_map_right_iff]
  simp only [hone]

theorem exists_iff : (∃ rules, CompileTo specs rules) ↔ ∀ spec ∈ specs, spec.Compiles := by
  induction specs with
  | nil => simp [CompileTo]
  | cons spec specs ih =>
    rw [List.forall_mem_cons, ← ih, compiles_iff]
    constructor
    · rintro ⟨rules, h⟩
      cases h with
      | cons hr hrest => exact ⟨⟨_, hr⟩, _, hrest⟩
    · rintro ⟨⟨r, hr⟩, rules, hrest⟩
      exact ⟨r :: rules, .cons hr hrest⟩

end RuleSpec.CompileTo

/-! ## Tables -/

namespace RuleTable

variable {t u : RuleTable}

theorem get?_eq_none_iff {name : String} : t.get? name = none ↔ name ∉ t.names := by
  refine ⟨fun h hmem => ?_, get?_eq_none⟩
  obtain ⟨r, hr, rfl⟩ := List.mem_map.mp hmem
  exact absurd (List.find?_eq_none.mp h r hr) (by simp)

/-- One rule is put behind the others, if its name is new. -/
theorem push_eq_ok {r : Rule} :
    t.push r = .ok u ↔ r.name ∉ t.names ∧ u = { t with rules := t.rules ++ [r] } := by
  rw [← get?_eq_none_iff, push]
  split
  next found hfound => simp [hfound]
  next hfound => simp [hfound, eq_comm]

/-- Rules are put into a table if they compile and have new names; they stand behind the others then. -/
theorem pushSpecs_eq_ok {specs : List RuleSpec} (ht : t.names.Nodup) :
    t.pushSpecs specs = .ok u ↔
      ∃ rules, RuleSpec.CompileTo specs rules ∧ (t.names ++ specs.map (·.name)).Nodup ∧
        u = { t with rules := t.rules ++ rules } := by
  constructor
  · intro h
    induction specs generalizing t with
    | nil =>
      cases h
      exact ⟨[], .nil, by simpa using ht, by rw [List.append_nil]⟩
    | cons spec specs ih =>
      rw [pushSpecs, List.foldlM_cons] at h
      cases hspec : Rule.ofSpec spec with
      | error e => rw [hspec] at h; cases h
      | ok r =>
        rw [hspec] at h
        replace h : (t.push r >>= fun t => t.pushSpecs specs) = .ok u := h
        cases hpush : t.push r with
        | error e => rw [hpush] at h; cases h
        | ok t' =>
          rw [hpush] at h
          obtain ⟨hnew, rfl⟩ := push_eq_ok.mp hpush
          have hnames : ({ t with rules := t.rules ++ [r] } : RuleTable).names = t.names ++ [spec.name] := by
            rw [names, List.map_append, names, List.map_singleton, Rule.name_ofSpec hspec]
          have hnodup : ({ t with rules := t.rules ++ [r] } : RuleTable).names.Nodup := by
            rw [hnames]
            refine ht.append (List.nodup_singleton _) ?_
            rwa [List.disjoint_singleton, ← Rule.name_ofSpec hspec]
          obtain ⟨rules, hrules, hdistinct, rfl⟩ := ih hnodup h
          refine ⟨r :: rules, .cons hspec hrules, ?_, ?_⟩
          · rwa [hnames, List.append_assoc, List.singleton_append] at hdistinct
          · rw [List.append_assoc, List.singleton_append]
  · rintro ⟨rules, hrules, hnames, rfl⟩
    exact pushSpecs_eq (RuleSpec.CompileTo.iff_map.mp hrules) (by rwa [hrules.map_name])

/-- One rule is taken out, if there is one of that name. -/
theorem disable_eq_ok {name : String} :
    t.disable name = .ok u ↔ name ∈ t.names ∧ u = { t with rules := t.rules.filter (·.name != name) } := by
  have hget : name ∈ t.names ↔ t.get? name ≠ none := by rw [Ne, get?_eq_none_iff, not_not]
  rw [hget, disable]
  split
  next r hfound => simp [hfound, eq_comm]
  next hfound => simp [hfound]

/-- Rules are taken out of a table if there are rules of these names and no name is repeated; the others
stay in their order. -/
theorem disableAll_eq_ok {names : List String} (hnames : names.Nodup) :
    t.disableAll names = .ok u ↔
      (∀ name ∈ names, name ∈ t.names) ∧ u = { t with rules := t.rules.filter (·.name ∉ names) } := by
  induction names generalizing t with
  | nil => simp [disableAll, pure, Except.pure, eq_comm]
  | cons name names ih =>
    obtain ⟨hname, hrest⟩ := List.nodup_cons.mp hnames
    have hstep : t.disableAll (name :: names) = t.disable name >>= fun t => t.disableAll names :=
      List.foldlM_cons
    rw [hstep, List.forall_mem_cons]
    cases hdisable : t.disable name with
    | error e =>
      have hmissing : name ∉ t.names := fun hmem => by
        cases hdisable.symm.trans (disable_eq_ok.mpr ⟨hmem, rfl⟩)
      simp [hmissing, bind, Except.bind]
    | ok t' =>
      obtain ⟨hmem, rfl⟩ := disable_eq_ok.mp hdisable
      -- the other names are still there
      have hkept : ∀ other ∈ names, other ∈ RuleTable.names { t with rules := t.rules.filter (·.name != name) } ↔
          other ∈ t.names := by
        intro other hother
        have hne : other ≠ name := fun h => hname (h ▸ hother)
        simp only [RuleTable.names, List.mem_map, List.mem_filter, bne_iff_ne]
        constructor
        · rintro ⟨r, ⟨hr, -⟩, rfl⟩
          exact ⟨r, hr, rfl⟩
        · rintro ⟨r, hr, rfl⟩
          exact ⟨r, ⟨hr, hne⟩, rfl⟩
      have hfilter : (t.rules.filter (·.name != name)).filter (·.name ∉ names) =
          t.rules.filter (·.name ∉ name :: names) := by
        rw [List.filter_filter]
        refine List.filter_congr fun r _ => ?_
        simp only [List.mem_cons, not_or, Bool.decide_and, decide_not, bne, Bool.and_comm, Bool.beq_eq_decide_eq]
      show RuleTable.disableAll _ names = _ ↔ _
      rw [ih hrest, forall₂_congr hkept, hfilter, and_iff_right hmem]

end RuleTable

/-! ## The table of layered settings -/

/-- The table that settings ask for, if there is one. -/
theorem Settings.table_eq_ok {s : Settings} (hs : s.disabled.Nodup) {t : RuleTable} :
    s.table = .ok t ↔
      ∃ rules, RuleSpec.CompileTo (RuleTable.builtinSpecs ++ s.rules) rules ∧
        ((RuleTable.builtinSpecs ++ s.rules).map (·.name)).Nodup ∧
        (∀ name ∈ s.disabled, name ∈ (RuleTable.builtinSpecs ++ s.rules).map (·.name)) ∧
        t = { rules := rules.filter (·.name ∉ s.disabled),
              options := s.compoundKinds.elim {} fun kinds => { compoundKinds := kinds } } := by
  have hpush : (RuleTable.builtin >>= fun t => t.pushSpecs s.rules) =
      RuleTable.pushSpecs {} (RuleTable.builtinSpecs ++ s.rules) := by
    rw [RuleTable.builtin, RuleTable.pushSpecs, RuleTable.pushSpecs, List.foldlM_append]
    rfl
  have htable : s.table = (RuleTable.pushSpecs {} (RuleTable.builtinSpecs ++ s.rules) >>= fun t =>
      t.disableAll s.disabled >>= fun t =>
        .ok (s.compoundKinds.elim t fun kinds => { t with options := { compoundKinds := kinds } })) := by
    rw [← hpush, bind_assoc, Settings.table]
    cases s.compoundKinds <;> rfl
  have hnames : ({} : RuleTable).names ++ (RuleTable.builtinSpecs ++ s.rules).map (·.name) =
    (RuleTable.builtinSpecs ++ s.rules).map (·.name) := rfl
  have hpushed (u : RuleTable) : RuleTable.pushSpecs {} (RuleTable.builtinSpecs ++ s.rules) = .ok u ↔ _ :=
    RuleTable.pushSpecs_eq_ok List.nodup_nil
  rw [hnames] at hpushed
  rw [htable]
  generalize RuleTable.builtinSpecs ++ s.rules = specs at hpushed
  constructor
  · intro h
    cases hfull : RuleTable.pushSpecs {} specs with
    | error e => rw [hfull] at h; cases h
    | ok full =>
      obtain ⟨rules, hrules, hdistinct, rfl⟩ := (hpushed full).mp hfull
      rw [hfull] at h
      replace h : (RuleTable.disableAll _ s.disabled >>= fun t => _) = _ := h
      cases hleft : RuleTable.disableAll { rules := [] ++ rules } s.disabled with
      | error e => rw [hleft] at h; cases h
      | ok left =>
        obtain ⟨hknown, rfl⟩ := (RuleTable.disableAll_eq_ok hs).mp hleft
        rw [hleft] at h
        refine ⟨rules, hrules, hdistinct, ?_, ?_⟩
        · rwa [← hrules.map_name]
        · obtain rfl := Except.ok.inj h
          cases s.compoundKinds <;> rfl
  · rintro ⟨rules, hrules, hdistinct, hknown, rfl⟩
    rw [← hrules.map_name] at hknown
    have hfull := (hpushed _).mpr ⟨rules, hrules, hdistinct, rfl⟩
    have hleft := (RuleTable.disableAll_eq_ok (t := { rules := [] ++ rules }) hs).mpr ⟨hknown, rfl⟩
    rw [hfull]
    show (RuleTable.disableAll _ s.disabled >>= fun t => _) = _
    rw [hleft]
    show Except.ok _ = _
    cases s.compoundKinds <;> rfl

/-- Layers of settings, with the names of a request on top. The disabled names are those of all layers
and of the request, each of them once. There is a normalizer if the rules of the layers compile, have
names of their own that no built-in rule has, and every disabled name is that of a rule. It has the
built-in rules and then those of the layers in order, without the disabled ones. -/
theorem Normalizer.ofSettings_layers (layers : List Settings) (r : Request) :
    let s := Command.settings r (layers.foldl Settings.merge {})
    let custom := layers.flatMap (·.rules)
    let specs := RuleTable.builtinSpecs ++ custom
    (s.disabled.Nodup ∧
      ∀ name, name ∈ s.disabled ↔ (∃ layer ∈ layers, name ∈ layer.disabled) ∨ name ∈ r.disabled) ∧
    ((∃ n, ofSettings s = .ok n) ↔
      (∀ spec ∈ custom, spec.Compiles) ∧
      ((custom.map (·.name)).Nodup ∧ ∀ spec ∈ custom, spec.name ∉ RuleTable.builtinSpecs.map (·.name)) ∧
      ∀ name ∈ s.disabled, ∃ spec ∈ specs, spec.name = name) ∧
    ∀ n, ofSettings s = .ok n →
      ∃ rules, RuleSpec.CompileTo specs rules ∧ n.table.rules = rules.filter (·.name ∉ s.disabled) ∧
        n.table.names.Nodup := by
  intro s custom specs
  obtain ⟨hrules, hmem, hnodup⟩ := Settings.merged {} layers
  have hs : s.disabled.Nodup := Settings.nodup_foldl_addNew (hnodup List.nodup_nil) r.disabled
  have hnames (name : String) :
      name ∈ s.disabled ↔ (∃ layer ∈ layers, name ∈ layer.disabled) ∨ name ∈ r.disabled := by
    refine (Settings.mem_foldl_addNew r.disabled).trans (or_congr_left ((hmem name).trans ?_))
    exact or_iff_right List.not_mem_nil
  have hcustom : s.rules = custom := hrules.trans (List.nil_append _)
  have htable (t : RuleTable) := Settings.table_eq_ok hs (t := t)
  rw [hcustom] at htable
  have hmade : (∃ n, ofSettings s = .ok n) ↔ ∃ t, s.table = .ok t := by
    rw [ofSettings]
    cases s.table <;> simp [bind, Except.bind, pure, Except.pure]
  have hdistinct : (specs.map (·.name)).Nodup ↔
      (custom.map (·.name)).Nodup ∧ ∀ spec ∈ custom, spec.name ∉ RuleTable.builtinSpecs.map (·.name) := by
    have hbuiltin : (RuleTable.builtinSpecs.map (·.name)).Nodup := by decide +kernel
    rw [List.map_append, List.nodup_append', and_iff_right hbuiltin, List.disjoint_comm]
    exact and_congr_right fun _ => List.forall_mem_map
  have hcompile : (∃ rules, RuleSpec.CompileTo specs rules) ↔ ∀ spec ∈ custom, spec.Compiles := by
    have hbuiltin : ∀ spec ∈ RuleTable.builtinSpecs, spec.Compiles :=
      RuleSpec.CompileTo.exists_iff.mp ⟨_, RuleSpec.CompileTo.iff_map.mpr Builtin.ofSpec_builtinSpecs⟩
    rw [RuleSpec.CompileTo.exists_iff, List.forall_mem_append, and_iff_right hbuiltin]
  refine ⟨⟨hs, hnames⟩, ?_, fun n hn => ?_⟩
  · rw [hmade, ← hcompile, ← hdistinct]
    constructor
    · rintro ⟨t, ht⟩
      obtain ⟨rules, hrules, hspecs, hknown, -⟩ := (htable t).mp ht
      exact ⟨⟨rules, hrules⟩, hspecs, fun name hname => List.mem_map.mp (hknown name hname)⟩
    · rintro ⟨⟨rules, hrules⟩, hspecs, hknown⟩
      exact ⟨_, (htable _).mpr ⟨rules, hrules, hspecs, fun name hname => List.mem_map.mpr (hknown name hname), rfl⟩⟩
  · obtain ⟨t, ht, rfl⟩ : ∃ t, s.table = .ok t ∧ n = { table := t, maxPasses := _ } := by
      rw [ofSettings] at hn
      cases ht : s.table with
      | error e => rw [ht] at hn; cases hn
      | ok t => rw [ht] at hn; exact ⟨t, rfl, (Except.ok.inj hn).symm⟩
    obtain ⟨rules, hrules, hspecs, -, rfl⟩ := (htable t).mp ht
    refine ⟨rules, hrules, rfl, ?_⟩
    rw [← hrules.map_name] at hspecs
    exact hspecs.sublist (List.filter_sublist.map _)

/-- Two layers that name some rules twice and bring a rule each. -/
def Settings.repetitive : List Settings :=
  [{ disabled := ["not-one", "not-one"], rules := [⟨"double-not", "!!expression1", "Boolean(expression1)"⟩] },
    { disabled := ["not-zero", "not-one"], rules := [⟨"typeof", "typeof expression1", "kind(expression1)"⟩] }]

theorem Normalizer.ofSettings_layers_repetitive :
    let s := Command.settings { disabled := ["double-not", "not-one"] } (Settings.repetitive.foldl Settings.merge {})
    let custom := Settings.repetitive.flatMap (·.rules)
    s.disabled = ["not-one", "not-zero", "double-not"] ∧
      (∀ spec ∈ custom, spec.Compiles) ∧
      ∃ n rules, ofSettings s = .ok n ∧ RuleSpec.CompileTo (RuleTable.builtinSpecs ++ custom) rules ∧
        n.table.rules = rules.filter (·.name ∉ s.disabled) ∧ n.table.names.Nodup := by
  intro s custom
  have hcustom : ∀ spec ∈ custom, spec.Compiles := by
    have hsome : custom.map (fun spec => (Rule.ofSpec spec).toOption.isSome) = [true, true] := by
      simp only [custom, Settings.repetitive, List.flatMap_cons, List.flatMap_nil, List.cons_append,
        List.nil_append, List.map_cons, List.map_nil, Rule.toOption_ofSpec]
      repeat rw [String.toList_ofList]
      decide +kernel
    intro spec hspec
    have htrue := List.eq_of_mem_replicate (n := 2) (hsome ▸ List.mem_map_of_mem hspec)
    rw [RuleSpec.compiles_iff]
    cases h : Rule.ofSpec spec with
    | error e => rw [h] at htrue; cases htrue
    | ok r => exact ⟨r, rfl⟩
  obtain ⟨-, hmade, htable⟩ := ofSettings_layers Settings.repetitive { disabled := ["double-not", "not-one"] }
  obtain ⟨n, hn⟩ := hmade.mpr ⟨hcustom, by decide +kernel, by decide +kernel⟩
  obtain ⟨rules, hrules, hleft, hdistinct⟩ := htable n hn
  exact ⟨by decide +kernel, hcustom, n, rules, hn, hrules, hleft, hdistinct⟩

end Unminify
