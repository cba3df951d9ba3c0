import Unminify.Proofs.Grammar.Sources
import Unminify.Proofs.Scope.Covering

/-!
# Every identifier is accounted for

The analysis of a phrase and the walk over it come to the same identifiers, each once: what analysis
does not take a step about is due to the scopes around the phrase (`covered`). So the graph of a
program that was read accounts for exactly the identifiers that walks come to, provided that
declarations stand in statement lists and in the heads of loops
(`Program.accounts_read`).
-/

namespace Unminify

open ScopeGraph

namespace Scope.Analysis

/-- In a phrase, only block functions count as hoisted. -/
def OnlyFunctions {c : Category} (hoisted : Std.TreeSet Nat) (t : Tree c) : Prop :=
  ∀ i, some i ∈ t.positions → hoisted.contains i = true →
    some i ∈ (t.blockFunctions true).map Tree.nameId?

/-- Analysis covers all identifiers of a phrase but those that are due to the scopes around it. -/
def Covered {c : Category} (t : Tree c) : Prop :=
  ∀ s : State, OnlyFunctions s.hoisted t →
    Covers (resolve t) s t.positions (fun φ => t.names.countP φ) (fun φ => due φ s.hoisted t)
      t.references

section

variable {c : Category} {t : Tree c} {set set' : Std.TreeSet Nat}

theorem OnlyFunctions.of_free (h : ∀ i, some i ∈ t.positions → set.contains i = false) :
    OnlyFunctions set t :=
  fun i hi hin => absurd ((h i hi).symm.trans hin) Bool.noConfusion

theorem OnlyFunctions.congr (h : OnlyFunctions set t)
    (hset : ∀ i, some i ∈ t.positions → set'.contains i = set.contains i) : OnlyFunctions set' t :=
  fun i hi hin => h i hi (hset i hi ▸ hin)

/-- Nothing counts as hoisted in a phrase that has no block functions. -/
theorem OnlyFunctions.free (h : OnlyFunctions set t) (hquiet : c.quiet = true) (i : Nat)
    (hi : some i ∈ t.positions) : set.contains i = false := by
  refine Bool.eq_false_iff.mpr fun hin => ?_
  have hmem := h i hi hin
  rw [Tree.blockFunctions_of_quiet hquiet] at hmem
  cases hmem

theorem OnlyFunctions.visited (h : OnlyFunctions set t) (hsp : t.spreads = true)
    (hnodup : t.positions.Nodup) {p : Phrase} (hp : p ∈ t.visited) : OnlyFunctions set p.2 := by
  intro i hi hin
  have hsub := visited_positions t
  have hmem := h i (hsub.subset (List.mem_flatMap.mpr ⟨p, hp, hi⟩)) hin
  rw [Tree.blockFunctions_of_spreads hsp] at hmem
  obtain ⟨n, hn, hni⟩ := List.mem_map.mp hmem
  obtain ⟨q, hq, hn⟩ := List.mem_flatMap.mp hn
  -- the block function with this position can only be in the part itself
  have hiq : some i ∈ q.2.positions := hni ▸ q.2.blockFunctions_positions n hn
  obtain rfl := eq_of_mem_positions (hnodup.sublist hsub) hp hq hi hiq
  exact List.mem_map.mpr ⟨n, hn, hni⟩

/-- What is due of a phrase depends on which of its identifiers count as hoisted. -/
theorem bodyDue_congr (φ : Name → Bool)
    (hset : ∀ i, some i ∈ t.positions → set'.contains i = set.contains i) :
    bodyDue φ set' t = bodyDue φ set t ∧ listDue φ set' t = listDue φ set t := by
  have hsame : ∀ n ∈ t.blockFunctions true, isHoisted set' n = isHoisted set n := by
    intro n hn
    have hpos := t.blockFunctions_positions n hn
    cases hid : n.nameId? with
    | none => rw [isHoisted, isHoisted, hid]; rfl
    | some i =>
      rw [isHoisted, isHoisted, hid]
      exact hset i (hid ▸ hpos)
  have hfunctions : (t.blockFunctions true).filter (isHoisted set') =
      (t.blockFunctions true).filter (isHoisted set) := List.filter_congr hsame
  have hnames : t.lexicalNames.filter (!skipped set' ·) = t.lexicalNames.filter (!skipped set ·) := by
    refine List.filter_congr fun d hd => ?_
    obtain ⟨n, kind⟩ := d
    by_cases hkind : kind = .function
    · subst hkind
      exact congrArg (fun b => !(true && b)) (hsame n (t.mem_blockFunctions n hd))
    · simp only [skipped, hkind, decide_false, Bool.false_and]
  rw [bodyDue, bodyDue, listDue, listDue, hfunctions, hnames]
  exact ⟨rfl, rfl⟩

theorem due_congr (φ : Name → Bool)
    (hset : ∀ i, some i ∈ t.positions → set'.contains i = set.contains i) :
    due φ set' t = due φ set t := by
  rw [due, due, (bodyDue_congr φ hset).1, (bodyDue_congr φ hset).2]

end

theorem total_congr {α : Type} {f g : α → Nat} {xs : List α} (h : ∀ x ∈ xs, f x = g x) :
    Tree.total f xs = Tree.total g xs := by
  induction xs with
  | nil => rfl
  | cons x xs ih =>
    show f x + Tree.total f xs = g x + Tree.total g xs
    rw [h x List.mem_cons_self, ih fun y hy => h y (List.mem_cons_of_mem _ hy)]

/-- Phrases walked one after the other. -/
theorem covers_all (ps : List Phrase) (hps : ∀ p ∈ ps, Covered p.2) {s : State}
    (hnodup : (ps.flatMap (·.2.positions)).Nodup) (honly : ∀ p ∈ ps, OnlyFunctions s.hoisted p.2) :
    Covers (ps.forM fun p => resolve p.2) s (ps.flatMap (·.2.positions))
      (fun φ => Tree.total (fun p => p.2.names.countP φ) ps)
      (fun φ => Tree.total (fun p => due φ s.hoisted p.2) ps) (ps.flatMap (·.2.references)) := by
  induction ps generalizing s with
  | nil => exact covers_nothing s
  | cons p ps ih =>
    rw [List.flatMap_cons] at hnodup
    obtain ⟨-, hrest, hdisjoint⟩ := List.nodup_append.mp hnodup
    have hframe : ∀ set : Std.TreeSet Nat,
        (∀ i, some i ∉ p.2.positions → set.contains i = s.hoisted.contains i) → ∀ q ∈ ps, ∀ i,
          some i ∈ q.2.positions → set.contains i = s.hoisted.contains i := by
      intro set hset q hq i hi
      exact hset i fun hi' => hdisjoint _ hi' _ (List.mem_flatMap.mpr ⟨q, hq, hi⟩) rfl
    have hlater : ∀ (graph : ScopeGraph) (set : Std.TreeSet Nat),
        (∀ i, some i ∉ p.2.positions → set.contains i = s.hoisted.contains i) →
        Covers (ps.forM fun p => resolve p.2) { s with graph, hoisted := set }
          (ps.flatMap (·.2.positions)) (fun φ => Tree.total (fun p => p.2.names.countP φ) ps)
          (fun φ => Tree.total (fun p => due φ s.hoisted p.2) ps) (ps.flatMap (·.2.references)) := by
      intro graph set hset
      refine (ih (fun q hq => hps q (List.mem_cons_of_mem _ hq)) hrest fun q hq =>
        (honly q (List.mem_cons_of_mem _ hq)).congr (hframe set hset q hq)).recount (fun i hi => hi)
          (fun φ => ?_) rfl
      exact congrArg _ (total_congr fun q hq => due_congr φ (hframe set hset q hq))
    exact (hps p List.mem_cons_self s (honly p List.mem_cons_self)).seq hlater

/-- Most phrases are covered if their parts are. -/
theorem covered_of_plain {c : Category} {t : Tree c} (hplain : t.plain = true) (hc : c.alone = true)
    (ht : t.Orderly) (hname : ∀ n, (⟨c, t⟩ : Phrase) ≠ ⟨.binder, .nameBinder n⟩)
    (hshort : ∀ n v, (⟨c, t⟩ : Phrase) ≠ ⟨.binderProp, .shortBinder n v⟩)
    (ih : ∀ p ∈ t.visited, Covered p.2) : Covered t := by
  intro s honly
  have hsub := visited_positions t
  have hnodup := ht.positioned.distinct
  have hnone : t.name? = none ∧ t.referred? = none := by
    cases t <;> first
      | exact ⟨rfl, rfl⟩
      | exact absurd hc Bool.false_ne_true
      | exact absurd hplain Bool.false_ne_true
  rw [resolve_of_plain hplain]
  refine (covers_all _ ih (hnodup.sublist hsub) fun p hp =>
    honly.visited (Tree.spreads_of_plain hplain) hnodup hp).recount (fun i hi => hsub.subset hi)
      (fun φ => ?_) ?_
  · rw [Tree.countP_names hnone.1, due_of_plain hplain ht.listed.self hname hshort]
  · rw [Tree.references_eq, hnone.2]
    rfl

/-! ## Scopes -/

section

variable {s : State} {is : List (Option Nat)} {all owed : (Name → Bool) → Nat} {refs : List Name}
  {b : Analysis Unit}

/-- The scope of a statement list or of a loop head declares what is due to the list. -/
theorem Covers.list {c : Category} {t : Tree c} {kind : ScopeKind}
    (hb : ∀ (graph : ScopeGraph) (current : ScopeId) (set : Std.TreeSet Nat),
      (∀ i, set.contains i = s.hoisted.contains i) →
        Covers b { s with graph, current, hoisted := set } is all
          (fun φ => owed φ + listDue φ s.hoisted t) refs) :
    Covers (Analysis.within kind do declareLexical t; b) s is all owed refs := by
  refine Covers.within fun graph current => ?_
  refine ((covers_declareLexical t { s with graph, current }).seq fun graph set hset =>
    hb graph current set fun i => hset i List.not_mem_nil).recount (fun i hi => hi) (fun φ => ?_) rfl
  show all φ + (0 + (owed φ + listDue φ s.hoisted t)) = listDue φ s.hoisted t + all φ + owed φ
  omega

/-- A scope with names of one kind. -/
theorem Covers.named {kind : ScopeKind} {as : BindingKind} {own : List Name}
    (hb : ∀ (graph : ScopeGraph) (current : ScopeId) (set : Std.TreeSet Nat),
      (∀ i, set.contains i = s.hoisted.contains i) →
        Covers b { s with graph, current, hoisted := set } is all owed refs) :
    Covers (Analysis.within kind do own.forM (declare as); b) s is (fun φ => own.countP φ + all φ) owed
      refs := by
  refine Covers.within fun graph current => ?_
  refine ((covers_declareAll as own { s with graph, current }).seq fun graph set hset =>
    hb graph current set fun i => hset i List.not_mem_nil).recount (fun i hi => hi) (fun φ => ?_) rfl
  show own.countP φ + all φ + (0 + owed φ) = own.countP φ + all φ + owed φ
  omega

/-- A body: what is declared for it is what is due of it inside. -/
theorem Covers.body {body : Block} (hbody : body.Positioned)
    (hfree : ∀ i, some i ∈ body.positions → s.hoisted.contains i = false)
    (his : ∀ i ∈ body.positions, i ∈ is)
    (hb : ∀ (graph : ScopeGraph) (hs : List Name) (set : Std.TreeSet Nat),
      hs.Sublist (body.blockFunctions false) → Hoists s.hoisted hs set →
        Covers b { s with graph, hoisted := set } is all (fun φ => owed φ + due φ set body) refs) :
    Covers (do declareBody body; b) s is all owed refs := by
  obtain ⟨hs, set, hsub, hset, hdecl⟩ := after_declareBody_of_free hfree
  have hdue := fun φ => due_of_hoists φ hbody hfree hsub hset
  generalize bodyNames body ++ hs.map (·, BindingKind.function) = ds at hdecl hdue
  rw [State.declaring_eq] at hdecl
  obtain ⟨steps, set', heq, hframe, hcount, href⟩ :=
    hb (s.graph.replay (ds.map fun d => .declares s.current d.1 d.2)) hs set hsub hset
  refine ⟨(ds.map fun d => .declares s.current d.1 d.2) ++ steps, set', ?_, fun i hi => ?_,
    fun φ => ?_, ?_⟩
  · rw [after_seq, hdecl, heq, ScopeGraph.replay, ScopeGraph.replay, ScopeGraph.replay,
      List.foldl_append]
  · rw [hframe i hi, hset]
    cases hin : (hs.map Tree.nameId?).contains (some i) with
    | false => exact Bool.or_false _
    | true =>
      obtain ⟨n, hn, hni⟩ := List.mem_map.mp (List.contains_iff_mem.mp hin)
      have hpos := body.blockFunctions_positions n (body.blockFunctions_subset n (hsub.subset hn))
      exact absurd (his _ (hni ▸ hpos)) hi
  · rw [named_append, named_declares, List.countP_append]
    have h : _ + (owed φ + due φ set body) = all φ := hcount φ
    rw [hdue] at h
    omega
  · rw [referred_append, referred_declares, href, List.nil_append]

theorem Covers.inFunction {params : Tree (.list .binder)} {body : Block}
    (h : Covers (do declareAll .param params.boundNames; declareBody body; b)
      { s with strict := s.strict || body.isStrict } is all owed refs) :
    Covers (inFunction params body b) s is all owed refs :=
  h.withStrictness

/-- A function, with its parameters and its body, or the expression that it returns. -/
theorem Covers.functionParts {own : List Name} {params : Tree (.list .binder)} {body : Block}
    {c : Category} {rest : Tree c} (hparams : Covered params) (hrest : Covered rest)
    (hbody : body.Positioned) (hsub : ∀ i ∈ body.positions, i ∈ rest.positions)
    (hdue : ∀ φ set, due φ set rest = due φ set body)
    (honly : ∀ hs set, hs.Sublist (body.blockFunctions false) → Hoists s.hoisted hs set →
      OnlyFunctions set rest)
    (hnodup : (params.positions ++ rest.positions).Nodup)
    (hfree : ∀ i, some i ∈ params.positions ++ rest.positions → s.hoisted.contains i = false) :
    Covers (Analysis.within .function do
        own.forM (declare .function)
        Analysis.inFunction params body do resolve params; resolve rest) s
      (params.positions ++ rest.positions)
      (fun φ => own.countP φ + (params.names.countP φ + rest.names.countP φ)) (fun _ => 0)
      (params.references ++ rest.references) := by
  have hflat : [(⟨_, params⟩ : Phrase), ⟨_, rest⟩].flatMap (·.2.positions) =
      params.positions ++ rest.positions := by
    simp only [List.flatMap_cons, List.flatMap_nil, List.append_nil]
  have hinside : ∀ (hs : List Name) (set : Std.TreeSet Nat), hs.Sublist (body.blockFunctions false) →
      Hoists s.hoisted hs set → OnlyFunctions set params := by
    intro hs set hhs hset
    refine .of_free fun i hi => ?_
    rw [hset i, hfree i (List.mem_append_left _ hi), Bool.false_or]
    refine Bool.eq_false_iff.mpr fun hin => ?_
    -- what is hoisted stands in the body, and not among the parameters
    obtain ⟨n, hn, hni⟩ := List.mem_map.mp (List.contains_iff_mem.mp hin)
    have hpos := body.blockFunctions_positions n (body.blockFunctions_subset n (hhs.subset hn))
    exact (List.nodup_append.mp hnodup).2.2 _ hi _ (hsub _ (hni ▸ hpos)) rfl
  have hscope : ∀ (graph : ScopeGraph) (current : ScopeId) (set : Std.TreeSet Nat),
      (∀ i, set.contains i = s.hoisted.contains i) →
      Covers (do declareBody body; resolve params; resolve rest)
        { graph, current, strict := s.strict || body.isStrict, hoisted := set }
        (params.positions ++ rest.positions)
        (fun φ => params.names.countP φ + rest.names.countP φ) (fun φ => params.boundNames.countP φ)
        (params.references ++ rest.references) := by
    intro graph current set hset
    refine Covers.body hbody (fun i hi => ?_) (fun i hi => List.mem_append_right _ (hsub i hi))
      fun graph hs set' hhs hset' => ?_
    · exact (hset i).trans (hfree i (List.mem_append_right _ (hsub _ hi)))
    · have hhoists : Hoists s.hoisted hs set' := fun i => by
        rw [hset' i, ← hset i]
      refine (covers_all [⟨_, params⟩, ⟨_, rest⟩] ?_ (hflat ▸ hnodup) ?_).recount
        (fun i hi => hflat ▸ hi) (fun φ => ?_) ?_
      · exact Tree.Each.of_mem (motive := fun _ t => Covered t) ⟨hparams, hrest, trivial⟩
      · exact Tree.Each.of_mem (motive := fun _ t => OnlyFunctions set' t)
          ⟨hinside hs set' hhs hhoists, honly hs set' hhs hhoists, trivial⟩
      · show _ + (due φ set' params + (due φ set' rest + 0)) =
          params.names.countP φ + (rest.names.countP φ + 0) +
            (params.boundNames.countP φ + due φ set' body)
        rw [due_of_binds (c := .list .binder) rfl, hdue]
        omega
      · simp only [List.flatMap_cons, List.flatMap_nil, List.append_nil]
  refine Covers.named fun graph current set hset => Covers.inFunction ?_
  refine ((covers_declareAll .param params.boundNames _).seq fun graph set' hset' =>
    hscope graph current set' fun i => (hset' i List.not_mem_nil).trans (hset i)).recount
      (fun i hi => hi) (fun φ => ?_) rfl
  show params.names.countP φ + rest.names.countP φ + (0 + params.boundNames.countP φ) =
    params.boundNames.countP φ + (params.names.countP φ + rest.names.countP φ) + 0
  omega

/-- What is hoisted in a body is one of its block functions. -/
theorem OnlyFunctions.body {body : Block} {before set : Std.TreeSet Nat} {hs : List Name}
    (hfree : ∀ i, some i ∈ body.positions → before.contains i = false)
    (hsub : hs.Sublist (body.blockFunctions false)) (hset : Hoists before hs set) :
    OnlyFunctions set body := by
  intro i hi hin
  rw [hset i, hfree i hi, Bool.false_or] at hin
  obtain ⟨n, hn, hni⟩ := List.mem_map.mp (List.contains_iff_mem.mp hin)
  exact List.mem_map.mpr ⟨n, body.blockFunctions_subset n (hsub.subset hn), hni⟩

/-- A function definition, walked in a scope that declares its own name or none. -/
theorem Covers.definition {own : List Name} {isAsync isGenerator : Bool}
    {name : Tree (.option .name)} {params : Tree (.list .binder)} {body : Block}
    (ih : ∀ q ∈ (Tree.function isAsync isGenerator name params body).phrases,
      q.1.alone = true → q.2.Orderly → Covered q.2)
    (hfn : (Tree.function isAsync isGenerator name params body).Orderly)
    (hfree : ∀ i, some i ∈ params.positions ++ body.positions → s.hoisted.contains i = false) :
    Covers (Analysis.within .function do
        own.forM (declare .function)
        Analysis.inFunction params body do resolve params; resolve body) s
      (Tree.function isAsync isGenerator name params body).positions
      (fun φ => own.countP φ + (params.names.countP φ + body.names.countP φ)) (fun _ => 0)
      (Tree.function isAsync isGenerator name params body).references := by
  have hparts : Tree.Each (fun c t => c.alone = true → t.Orderly → Covered t)
      (Tree.function isAsync isGenerator name params body).parts :=
    .of_forall fun p hp => ih p (Tree.mem_phrases_of_part hp p.2.self_mem_phrases)
  have horderly : Tree.Each (fun _ t => t.Orderly)
      (Tree.function isAsync isGenerator name params body).parts :=
    .of_forall fun p hp => hfn.part hp
  have hnodup := hfn.positioned.distinct
  rw [positions_function] at hnodup ⊢
  refine (Covers.functionParts (hparts.2.1 rfl horderly.2.1) (hparts.2.2.1 rfl horderly.2.2.1)
    horderly.2.2.1.positioned (fun i hi => hi) (fun φ set => rfl) (fun hs set hsub hset => ?_)
    (List.nodup_append.mp hnodup).2.1 hfree).recount (fun i hi => List.mem_append_right _ hi)
      (fun φ => rfl) (Tree.references_function isAsync isGenerator name params body).symm
  exact .body (fun i hi => hfree i (List.mem_append_right _ hi)) hsub hset

/-- The members of a class, and its name if the class declares it. -/
theorem Covers.classMembers {own : Option Name} {members : Tree (.list .member)}
    (hmembers : Covered members)
    (hfree : ∀ i, some i ∈ members.positions → s.hoisted.contains i = false) :
    Covers (inClass own (resolve members)) s members.positions
      (fun φ => own.toList.countP φ + members.names.countP φ) (fun _ => 0) members.references := by
  have hinside : ∀ (graph : ScopeGraph) (current : ScopeId) (set : Std.TreeSet Nat),
      (∀ i, set.contains i = s.hoisted.contains i) →
      Covers (resolve members) { graph, current, strict := true, hoisted := set } members.positions
        (fun φ => members.names.countP φ) (fun _ => 0) members.references := by
    intro graph current set hset
    refine (hmembers { graph, current, strict := true, hoisted := set } (.of_free fun i hi =>
      (hset i).trans (hfree i hi))).recount (fun i hi => hi) (fun φ => ?_) rfl
    exact congrArg _ (due_of_silent rfl members)
  refine Covers.within fun graph current => Covers.withStrictness ?_
  refine ((covers_declareAll .classDef own.toList
    { s with graph, current, strict := true }).seq fun graph set hset =>
      hinside graph current set fun i => hset i List.not_mem_nil).recount (fun i hi => hi) (fun φ => rfl)
        rfl

end

/-! ## Every phrase -/

/-- A method: its key is walked outside its scope. -/
theorem covers_method {c : Category} {t : Tree c} {key : Tree .key} {fn : Tree .function} {s : State}
    (hsilent : c.silent = true) (hself : t.position? = none ∧ t.name? = none ∧ t.referred? = none)
    (hparts : t.parts = [⟨_, key⟩, ⟨_, fn⟩]) (hvisited : t.visited = [⟨_, key⟩, ⟨_, fn⟩])
    (hresolve : resolve t = (do resolve key; Analysis.within .function (resolve fn)))
    (hname : fn.definedName = none) (ht : t.Orderly)
    (ih : ∀ p ∈ t.parts, ∀ q ∈ p.2.phrases, q.1.alone = true → q.2.Orderly → Covered q.2)
    (hfree : ∀ i, some i ∈ t.positions → s.hoisted.contains i = false) :
    Covers (resolve t) s t.positions (fun φ => t.names.countP φ) (fun φ => due φ s.hoisted t)
      t.references := by
  have hnodup := ht.positioned.distinct
  rw [positions_two hself.1 hparts] at hnodup hfree ⊢
  obtain ⟨-, -, hdisjoint⟩ := List.nodup_append.mp hnodup
  have horderly : Tree.Each (fun _ t => t.Orderly) t.parts := .of_forall fun p hp => ht.part hp
  rw [hparts] at ih horderly
  have hkey : Covered key := ih _ List.mem_cons_self _ key.self_mem_phrases rfl horderly.1
  cases fn with
  | function isAsync isGenerator name params body =>
    have hnil : name.toOption = none := hname
    have hfirst := hkey s (.of_free fun i hi => hfree i (List.mem_append_left _ hi))
    rw [hresolve, resolve_function]
    refine (hfirst.seq fun graph set hset => Covers.definition
      (ih _ (List.mem_cons_of_mem _ List.mem_cons_self)) horderly.2.1 fun i hi => ?_).recount
        (fun i hi => hi) (fun φ => ?_) ?_
    · have hi' : some i ∈ (Tree.function isAsync isGenerator name params body).positions := by
        rw [positions_function]
        exact List.mem_append_right _ hi
      rw [hset i fun h => hdisjoint _ h _ hi' rfl]
      exact hfree i (List.mem_append_right _ hi')
    · rw [Tree.names_two hself.2.1 hvisited, Tree.names_function, hnil, due_of_silent hsilent t,
        due_of_silent rfl key, List.countP_append, List.countP_append, List.countP_append]
      rfl
    · exact (Tree.references_two hself.2.2 hvisited).symm

/-- A class: its heritage is walked outside its scope. -/
theorem Covers.classParts {own : Option Name} {name : Tree (.option .name)}
    {heritage : Tree (.option .expr)} {members : Tree (.list .member)} {s : State}
    (ih : ∀ q ∈ (Tree.classDef name heritage members).phrases,
      q.1.alone = true → q.2.Orderly → Covered q.2)
    (hdef : (Tree.classDef name heritage members).Orderly)
    (hfree : ∀ i, some i ∈ (Tree.classDef name heritage members).positions →
      s.hoisted.contains i = false) :
    Covers (do resolve heritage; inClass own (resolve members)) s
      (Tree.classDef name heritage members).positions
      (fun φ => own.toList.countP φ + (heritage.names.countP φ + members.names.countP φ)) (fun _ => 0)
      (Tree.classDef name heritage members).references := by
  have hpos : (Tree.classDef name heritage members).positions =
      name.positions ++ (heritage.positions ++ members.positions) := by
    rw [Tree.positions_eq]
    show name.positions ++ (heritage.positions ++ (members.positions ++ [])) = _
    rw [List.append_nil]
  have hnodup := hdef.positioned.distinct
  rw [hpos] at hnodup hfree ⊢
  obtain ⟨-, hnodup', -⟩ := List.nodup_append.mp hnodup
  obtain ⟨-, -, hdisjoint⟩ := List.nodup_append.mp hnodup'
  have hparts : Tree.Each (fun c t => c.alone = true → t.Orderly → Covered t)
      (Tree.classDef name heritage members).parts :=
    .of_forall fun p hp => ih p (Tree.mem_phrases_of_part hp p.2.self_mem_phrases)
  have horderly : Tree.Each (fun _ t => t.Orderly) (Tree.classDef name heritage members).parts :=
    .of_forall fun p hp => hdef.part hp
  have hfirst := hparts.2.1 rfl horderly.2.1 s (.of_free fun i hi =>
    hfree i (List.mem_append_right _ (List.mem_append_left _ hi)))
  refine (hfirst.seq fun graph set hset => Covers.classMembers (hparts.2.2.1 rfl horderly.2.2.1)
    fun i hi => ?_).recount (fun i hi => List.mem_append_right _ hi) (fun φ => ?_)
      (Tree.references_classDef name heritage members).symm
  · rw [hset i fun hi' => hdisjoint _ hi' _ hi rfl]
    exact hfree i (List.mem_append_right _ (List.mem_append_right _ hi))
  · have hnothing : due φ s.hoisted heritage = 0 := due_of_silent rfl heritage
    show own.toList.countP φ + (heritage.names.countP φ + members.names.countP φ) +
      (due φ s.hoisted heritage + 0) =
        heritage.names.countP φ + (own.toList.countP φ + members.names.countP φ) + 0
    omega

/-- An arrow, with the statements of its body or the expression that it returns. -/
theorem covers_arrow {isAsync : Bool} {params : Tree (.list .binder)} {inner : Tree .arrowBody}
    {body : Block} {c : Category} {rest : Tree c} {s : State} (hparts : inner.parts = [⟨c, rest⟩])
    (hvisited : inner.visited = [⟨c, rest⟩]) (hresolve : resolve inner = resolve rest)
    (hblock : inner.arrowBlock = body) (ht : (Tree.arrow isAsync params inner).Orderly)
    (hparams : Covered params) (hrest : Covered rest) (hbody : body.Positioned)
    (hsub : ∀ i ∈ body.positions, i ∈ rest.positions)
    (hdue : ∀ φ set, due φ set rest = due φ set body)
    (honly : ∀ hs set, hs.Sublist (body.blockFunctions false) → Hoists s.hoisted hs set →
      OnlyFunctions set rest)
    (hfree : ∀ i, some i ∈ (Tree.arrow isAsync params inner).positions →
      s.hoisted.contains i = false) :
    Covers (resolve (.arrow isAsync params inner)) s (Tree.arrow isAsync params inner).positions
      (fun φ => (Tree.arrow isAsync params inner).names.countP φ)
      (fun φ => due φ s.hoisted (Tree.arrow isAsync params inner))
      (Tree.arrow isAsync params inner).references := by
  have hnodup := ht.positioned.distinct
  have hself : inner.position? = none ∧ inner.name? = none ∧ inner.referred? = none := by
    cases inner <;> exact ⟨rfl, rfl, rfl⟩
  rw [positions_two rfl rfl, positions_one hself.1 hparts] at hnodup hfree ⊢
  have hfunction : Covers (Analysis.within .function do
      ([] : List Name).forM (declare .function)
      Analysis.inFunction params body do resolve params; resolve rest) s _ _ _ _ :=
    .functionParts hparams hrest hbody hsub hdue honly hnodup hfree
  rw [forM_nil_seq, ← hblock, ← hresolve] at hfunction
  refine hfunction.recount (fun i hi => hi) (fun φ => ?_) ?_
  · rw [Tree.names_two rfl rfl, Tree.names_one hself.2.1 hvisited, List.countP_append,
      due_of_silent rfl (Tree.arrow _ _ _)]
    exact congrArg (· + 0) (Nat.zero_add _).symm
  · rw [Tree.references_two (t := Tree.arrow _ _ _) rfl rfl, Tree.references_one hself.2.2 hvisited]

/-- Identifiers, functions and classes. -/
theorem covered_of_quiet {c : Category} {t : Tree c} (hquiet : c.quiet = true)
    (hplain : t.plain = false) (hc : c.alone = true) (ht : t.Orderly)
    (ih : ∀ p ∈ t.parts, ∀ q ∈ p.2.phrases, q.1.alone = true → q.2.Orderly → Covered q.2) :
    Covered t := by
  intro s honly
  have hfree := honly.free hquiet
  have horderly : Tree.Each (fun _ t => t.Orderly) t.parts := .of_forall fun p hp => ht.part hp
  have hparts : Tree.Each (fun c t => c.alone = true → t.Orderly → Covered t) t.parts :=
    .of_forall fun p hp => ih p hp p p.2.self_mem_phrases
  cases t with
  | identExpr name =>
    refine (covers_reference name s).recount (fun i hi => (nomatch hi)) (fun φ => ?_) ?_
    · rw [Tree.countP_names rfl, due_of_silent rfl]
      show name.names.countP φ + 0 + 0 = [name].countP φ + 0
      rw [Tree.names_name]
    · rw [Tree.references_eq]
      show _ = [name] ++ (name.references ++ [])
      rw [Tree.references_name]
      rfl
  | shorthand name =>
    refine (covers_reference name s).recount (fun i hi => (nomatch hi)) (fun φ => ?_) ?_
    · rw [Tree.countP_names rfl, due_of_silent rfl]
      show name.names.countP φ + 0 + 0 = [name].countP φ + 0
      rw [Tree.names_name]
    · rw [Tree.references_eq]
      show _ = [name] ++ (name.references ++ [])
      rw [Tree.references_name]
      rfl
  | functionExpr fn =>
    cases fn with
    | function isAsync isGenerator name params body =>
      rw [positions_one rfl rfl] at hfree ⊢
      refine (Covers.definition (ih _ List.mem_cons_self) horderly.1 fun i hi => ?_).recount
        (fun i hi => hi) (fun φ => ?_) ?_
      · rw [positions_function] at hfree
        exact hfree i (List.mem_append_right _ hi)
      · rw [Tree.names_one rfl rfl, Tree.names_function, List.countP_append, List.countP_append,
          due_of_silent rfl]
        rfl
      · exact (Tree.references_one rfl rfl).symm
  | methodProp kind key fn =>
    exact covers_method rfl ⟨rfl, rfl, rfl⟩ rfl rfl rfl ht.sourced.self ht ih hfree
  | method kind isStatic key fn =>
    exact covers_method rfl ⟨rfl, rfl, rfl⟩ rfl rfl rfl ht.sourced.self ht ih hfree
  | classExpr definition =>
    cases definition with
    | classDef name heritage members =>
      rw [positions_one rfl rfl] at hfree ⊢
      refine (Covers.classParts (ih _ List.mem_cons_self) horderly.1 hfree).recount (fun i hi => hi)
        (fun φ => ?_) ?_
      · rw [Tree.names_one rfl rfl, Tree.names_classDef, List.countP_append, List.countP_append,
          due_of_silent rfl]
      · exact (Tree.references_one rfl rfl).symm
  | arrow isAsync params inner =>
    have hp : Covered params := hparts.1 rfl horderly.1
    have hinner := ih _ (List.mem_cons_of_mem _ List.mem_cons_self)
    cases inner with
    | exprBody value =>
      have hvalue : Covered value := hinner ⟨_, value⟩
        (Tree.mem_phrases_of_part List.mem_cons_self value.self_mem_phrases) rfl
        (horderly.2.1.part List.mem_cons_self)
      have hblock : (Tree.exprBody value).arrowBlock = .stmts .nil := rfl
      refine covers_arrow rfl rfl rfl hblock ht hp hvalue ⟨nofun, List.nodup_nil⟩
        (fun i hi => (nomatch hi)) (fun φ set => due_of_silent rfl value) (fun hs set hsub hset => ?_)
        hfree
      refine .of_free fun i hi => ?_
      rw [hset i, List.sublist_nil.mp hsub]
      rw [positions_two rfl rfl] at hfree
      have hpos : (Tree.exprBody value).positions = value.positions := positions_one rfl rfl
      exact congrArg (· || false) (hfree i (List.mem_append_right _ (hpos ▸ hi)))
    | blockBody body =>
      have hblock : (Tree.blockBody body).arrowBlock = body := rfl
      have hregular : body.Orderly := horderly.2.1.part List.mem_cons_self
      have hbody : Covered body := hinner ⟨_, body⟩
        (Tree.mem_phrases_of_part List.mem_cons_self body.self_mem_phrases) rfl hregular
      refine covers_arrow rfl rfl rfl hblock ht hp hbody hregular.positioned (fun i hi => hi)
        (fun φ set => rfl) (fun hs set hsub hset => ?_) hfree
      rw [positions_two rfl rfl] at hfree
      have hpos : (Tree.blockBody body).positions = body.positions := positions_one rfl rfl
      exact .body (fun i hi => hfree i (List.mem_append_right _ (hpos ▸ hi))) hsub hset
  | staticBlock body =>
    have hnodup := ht.positioned.distinct
    rw [positions_one rfl rfl] at hnodup hfree ⊢
    have hnil : Covered (.nil : Tree (.list .binder)) := fun s _ =>
      (covers_nothing s).recount (fun i hi => (nomatch hi)) (fun φ => rfl) rfl
    have hfunction : Covers (Analysis.within .function do
        ([] : List Name).forM (declare .function)
        Analysis.inFunction .nil body do resolve (.nil : Tree (.list .binder)); resolve body) s _ _ _ _ :=
      .functionParts hnil (hparts.1 rfl horderly.1) horderly.1.positioned (fun i hi => hi)
        (fun φ set => rfl) (fun hs set hsub hset => .body hfree hsub hset) hnodup hfree
    refine hfunction.recount (fun i hi => hi) (fun φ => ?_) (Tree.references_one rfl rfl).symm
    rw [Tree.names_one rfl rfl, due_of_silent rfl (Tree.staticBlock body)]
    show body.names.countP φ + 0 = 0 + (0 + body.names.countP φ) + 0
    omega
  | _ =>
    first
    | exact absurd hc Bool.false_ne_true
    | exact absurd hquiet Bool.false_ne_true
    | exact absurd hplain Bool.noConfusion

/-- A name that a pattern binds is declared by the scope around it. -/
theorem covered_nameBinder (n : Name) : Covered (.nameBinder n) := by
  intro s _
  have hresolve : resolve (.nameBinder n) = pure () := by cases n <;> rfl
  rw [hresolve]
  refine (covers_nothing s).recount (fun i hi => (nomatch hi)) (fun φ => ?_) ?_
  · rw [Tree.names_one rfl rfl, Tree.names_name]
    exact Nat.add_comm _ _
  · exact (Tree.references_one rfl rfl).trans n.references_name |>.symm

theorem covered_shortBinder {n : Name} {value : Tree (.option .expr)} (hvalue : Covered value) :
    Covered (.shortBinder n value) := by
  intro s honly
  have hsub : ∀ i ∈ value.positions, i ∈ (Tree.shortBinder n value).positions := fun i hi =>
    (Tree.positions_part (List.mem_cons_of_mem _ List.mem_cons_self)).subset hi
  have hfree := honly.free rfl
  refine (hvalue s (.of_free fun i hi => hfree i (hsub _ hi))).recount hsub (fun φ => ?_) ?_
  · rw [Tree.names_two rfl rfl, Tree.names_name, due_of_silent rfl value, due_of_binds rfl,
      List.countP_append, Nat.add_zero]
    exact Nat.add_comm _ _
  · rw [Tree.references_two (t := Tree.shortBinder n value) rfl rfl, Tree.references_name]
    rfl

/-- A statement list in a scope of its own. -/
theorem Covered.block {c : Category} {t : Tree c} {kind : ScopeKind} {s : State} (hc : c.binds = false)
    (ht : Covered t) (honly : OnlyFunctions s.hoisted t) :
    Covers (Analysis.within kind do declareLexical t; resolve t) s t.positions
      (fun φ => t.names.countP φ) (fun φ => bodyDue φ s.hoisted t) t.references := by
  refine Covers.list fun graph current set hset => ?_
  refine (ht { s with graph, current, hoisted := set } (honly.congr fun i _ => hset i)).recount
    (fun i hi => hi) (fun φ => ?_) rfl
  rw [due_congr φ fun i _ => hset i, due_of_not_binds hc]

/-- A statement list in a scope of its own, after other phrases. -/
theorem Covered.beside {c : Category} {t : Tree c} {kind : ScopeKind} {s : State} {graph : ScopeGraph}
    {current : ScopeId} {set : Std.TreeSet Nat} (hc : c.binds = false) (ht : Covered t)
    (honly : OnlyFunctions s.hoisted t)
    (hset : ∀ i, some i ∈ t.positions → set.contains i = s.hoisted.contains i) :
    Covers (Analysis.within kind do declareLexical t; resolve t)
      { s with graph, current, hoisted := set } t.positions (fun φ => t.names.countP φ)
      (fun φ => bodyDue φ s.hoisted t) t.references := by
  refine (Covered.block (s := { s with graph, current, hoisted := set }) hc ht
    (honly.congr hset)).recount (fun i hi => hi) (fun φ => ?_) rfl
  rw [(bodyDue_congr φ hset).1]

/-- A loop: its head declares names in a scope around the whole of it. -/
theorem covered_loop {t : Stmt} {c : Category} {head : Tree c} {ps : List Phrase} (hc : c.binds = false)
    (hself : t.name? = none ∧ t.referred? = none) (hsp : t.spreads = true)
    (hvisited : t.visited = ⟨c, head⟩ :: ps)
    (hresolve : resolve t = Analysis.within .loopHead do
      declareLexical head
      t.visited.forM fun p => resolve p.2)
    (hdue : ∀ φ set, due φ set t = bodyDue φ set head + Tree.total (fun p => due φ set p.2) ps)
    (ht : t.Orderly) (ih : ∀ p ∈ t.visited, Covered p.2) : Covered t := by
  intro s honly
  have hsub := visited_positions t
  have hnodup := ht.positioned.distinct
  have hinside : ∀ p ∈ t.visited, OnlyFunctions s.hoisted p.2 := fun p hp => honly.visited hsp hnodup hp
  have hscope : ∀ (graph : ScopeGraph) (current : ScopeId) (set : Std.TreeSet Nat),
      (∀ i, set.contains i = s.hoisted.contains i) →
      Covers (t.visited.forM fun p => resolve p.2) { s with graph, current, hoisted := set } t.positions
        (fun φ => t.names.countP φ) (fun φ => due φ s.hoisted t + listDue φ s.hoisted head)
        t.references := by
    intro graph current set hset
    refine (covers_all _ ih (s := { s with graph, current, hoisted := set }) (hnodup.sublist hsub)
      fun p hp => (hinside p hp).congr fun i _ => hset i).recount (fun i hi => hsub.subset hi)
        (fun φ => ?_) ?_
    · have hparts : Tree.total (fun p => due φ set p.2) t.visited =
          due φ s.hoisted t + listDue φ s.hoisted head := by
        rw [total_congr fun p hp => due_congr φ fun i _ => hset i, hdue, hvisited]
        show due φ s.hoisted head + Tree.total (fun p => due φ s.hoisted p.2) ps = _
        rw [due_of_not_binds hc]
        omega
      rw [hparts, Tree.countP_names hself.1]
    · rw [Tree.references_eq, hself.2]
      rfl
  rw [hresolve]
  exact Covers.list hscope

/-- The head of a loop has no block functions. -/
theorem bodyDue_loop {φ : Name → Bool} {set : Std.TreeSet Nat} {c : Category} (hc : c.quiet = true)
    (head : Tree c) (inner : Tree .body) :
    (head.hoistedVars ++ inner.hoistedVars).countP φ +
        ((inner.blockFunctions true).filter (isHoisted set)).countP φ =
      bodyDue φ set head + due φ set inner := by
  rw [due_governed, ← countP_bodies, Tree.blockFunctions_of_quiet hc]
  rfl

/-- A `finally` block, if there is one. -/
theorem covers_finalizer {finalizer : Tree (.option .block)} {s : State} (ht : finalizer.Orderly)
    (ih : ∀ q ∈ finalizer.phrases, q.1.alone = true → q.2.Orderly → Covered q.2)
    (honly : OnlyFunctions s.hoisted finalizer) :
    Covers (do if let some last := finalizer.toOption then inBlock last (resolve finalizer)) s
      finalizer.positions (fun φ => finalizer.names.countP φ) (fun φ => bodyDue φ s.hoisted finalizer)
      finalizer.references := by
  cases finalizer with
  | none => exact covers_nothing s
  | some last =>
    have hfinalizer : Covered (.some last) := ih _ (Tree.self_mem_phrases _) rfl ht
    exact Covered.block rfl hfinalizer honly

/-- A `try`, with what catches and what comes last. -/
theorem covered_tryStmt {inner : Block} {caught : Tree (.option .handler)}
    {finalizer : Tree (.option .block)} (ht : (Tree.tryStmt inner caught finalizer).Orderly)
    (ih : ∀ p ∈ (Tree.tryStmt inner caught finalizer).parts, ∀ q ∈ p.2.phrases, q.1.alone = true →
      q.2.Orderly → Covered q.2) : Covered (.tryStmt inner caught finalizer) := by
  intro s honly
  have hnodup := ht.positioned.distinct
  have hinside : Tree.Each (fun _ t => OnlyFunctions s.hoisted t)
      (Tree.tryStmt inner caught finalizer).visited :=
    .of_forall fun p hp => honly.visited rfl hnodup hp
  have horderly : Tree.Each (fun _ t => t.Orderly) (Tree.tryStmt inner caught finalizer).parts :=
    .of_forall fun p hp => ht.part hp
  have hparts : Tree.Each (fun c t => c.alone = true → t.Orderly → Covered t)
      (Tree.tryStmt inner caught finalizer).parts :=
    .of_forall fun p hp => ih p hp p p.2.self_mem_phrases
  have hpos : (Tree.tryStmt inner caught finalizer).positions =
      inner.positions ++ (caught.positions ++ finalizer.positions) := by
    rw [Tree.positions_eq]
    show inner.positions ++ (caught.positions ++ (finalizer.positions ++ [])) = _
    rw [List.append_nil]
  rw [hpos] at hnodup ⊢
  obtain ⟨-, hrest, hdi⟩ := List.nodup_append.mp hnodup
  obtain ⟨-, -, hdc⟩ := List.nodup_append.mp hrest
  have hlast : ∀ (graph : ScopeGraph) (set : Std.TreeSet Nat),
      (∀ i, some i ∈ finalizer.positions → set.contains i = s.hoisted.contains i) →
      Covers (do if let some last := finalizer.toOption then inBlock last (resolve finalizer))
        { s with graph, hoisted := set } finalizer.positions (fun φ => finalizer.names.countP φ)
        (fun φ => bodyDue φ s.hoisted finalizer) finalizer.references := by
    intro graph set hset
    refine (covers_finalizer (s := { s with graph, hoisted := set }) horderly.2.2.1
      (ih _ (List.mem_cons_of_mem _ (List.mem_cons_of_mem _ List.mem_cons_self)))
      (hinside.2.2.1.congr hset)).recount (fun i hi => hi) (fun φ => ?_) rfl
    rw [(bodyDue_congr φ hset).1]
  have hlater : ∀ (graph : ScopeGraph) (set : Std.TreeSet Nat),
      (∀ i, some i ∉ inner.positions → set.contains i = s.hoisted.contains i) →
      Covers (do
          resolve caught
          if let some last := finalizer.toOption then inBlock last (resolve finalizer))
        { s with graph, hoisted := set } (caught.positions ++ finalizer.positions)
        (fun φ => caught.names.countP φ + finalizer.names.countP φ)
        (fun φ => bodyDue φ s.hoisted caught + bodyDue φ s.hoisted finalizer)
        (caught.references ++ finalizer.references) := by
    intro graph set hset
    have hsame : ∀ i, some i ∈ caught.positions ++ finalizer.positions →
        set.contains i = s.hoisted.contains i := fun i hi => hset i fun hi' => hdi _ hi' _ hi rfl
    have hcaught := hparts.2.1 rfl horderly.2.1 { s with graph, hoisted := set }
      (hinside.2.1.congr fun i hi => hsame i (List.mem_append_left _ hi))
    refine (hcaught.seq fun graph' set' hset' => hlast graph' set' fun i hi => ?_).recount
      (fun i hi => hi) (fun φ => ?_) rfl
    · exact (hset' i fun hi' => hdc _ hi' _ hi rfl).trans (hsame i (List.mem_append_right _ hi))
    · have hnone : listDue φ s.hoisted caught = 0 := by
        cases caught with
        | none => rfl
        | some caught => cases caught; rfl
      rw [due_congr φ fun i hi => hsame i (List.mem_append_left _ hi), due_of_not_binds rfl, hnone]
      omega
  refine ((Covered.block rfl (hparts.1 rfl horderly.1) hinside.1).seq hlater).recount
    (fun i hi => hi) (fun φ => ?_) ?_
  · have hdue : due φ s.hoisted (Tree.tryStmt inner caught finalizer) =
        bodyDue φ s.hoisted inner + (bodyDue φ s.hoisted caught + bodyDue φ s.hoisted finalizer) := by
      show (inner.hoistedVars ++ caught.hoistedVars ++ finalizer.hoistedVars).countP φ +
        ((inner.blockFunctions true ++ caught.blockFunctions true ++
          finalizer.blockFunctions true).filter (isHoisted s.hoisted)).countP φ + 0 = _
      simp only [List.filter_append, List.countP_append, bodyDue]
      omega
    rw [hdue, Tree.countP_names rfl]
    rfl
  · rw [Tree.references_eq (Tree.tryStmt inner caught finalizer)]
    show _ = inner.references ++ (caught.references ++ (finalizer.references ++ []))
    rw [List.append_nil]

/-- The name of a function is due to the function around it or to its list, that of a class to its
list. -/
theorem countP_defined (φ : Name → Bool) (set : Std.TreeSet Nat) (ns : List Name) :
    (ns.filter (isHoisted set)).countP φ +
      (((ns.map (·, BindingKind.function)).filter (!skipped set ·)).map Prod.fst).countP φ =
        ns.countP φ := by
  induction ns with
  | nil => rfl
  | cons n ns ih =>
    rw [List.filter_cons, List.map_cons, List.filter_cons]
    have hskipped : skipped set (n, .function) = isHoisted set n := rfl
    rw [hskipped]
    cases isHoisted set n <;> simp only [Bool.not_false, Bool.not_true, if_true, List.map_cons,
      List.countP_cons, Bool.false_eq_true, if_false] <;> omega

/-- Statements that open scopes. -/
theorem covered_of_statement {c : Category} {t : Tree c} (hquiet : c.quiet = false)
    (hplain : t.plain = false) (ht : t.Orderly)
    (ih : ∀ p ∈ t.parts, ∀ q ∈ p.2.phrases, q.1.alone = true → q.2.Orderly → Covered q.2) :
    Covered t := by
  have horderly : Tree.Each (fun _ t => t.Orderly) t.parts := .of_forall fun p hp => ht.part hp
  have hparts : Tree.Each (fun c t => c.alone = true → t.Orderly → Covered t) t.parts :=
    .of_forall fun p hp => ih p hp p p.2.self_mem_phrases
  have hnodup := ht.positioned.distinct
  cases t with
  | tryStmt inner caught finalizer => exact covered_tryStmt ht ih
  | functionStmt fn =>
    intro s honly
    cases fn with
    | function isAsync isGenerator name params body =>
      have hfn : (Tree.function isAsync isGenerator name params body).Orderly := horderly.1
      have hpos : (Tree.functionStmt (.function isAsync isGenerator name params body)).positions =
          (Tree.function isAsync isGenerator name params body).positions := positions_one rfl rfl
      rw [hpos, positions_function] at hnodup
      have hfunction : Covers (Analysis.within .function do
          ([] : List Name).forM (declare .function)
          Analysis.inFunction params body do resolve params; resolve body) s _ _ _ _ :=
        .definition (ih _ List.mem_cons_self) hfn fun i hi => by
          refine Bool.eq_false_iff.mpr fun hin => ?_
          -- only the name of the function may count as hoisted
          have hmem := honly i (by
            rw [hpos, positions_function]
            exact List.mem_append_right _ hi) hin
          obtain ⟨n, hn, hni⟩ := List.mem_map.mp hmem
          exact (List.nodup_append.mp hnodup).2.2 _ (hni ▸ mem_positions_toOption hn) _ hi rfl
      refine hfunction.recount (fun i hi => hpos ▸ hi) (fun φ => ?_) ?_
      · have hdue : due φ s.hoisted (Tree.functionStmt (.function isAsync isGenerator name params body)) =
            name.toOption.toList.countP φ := by
          rw [due_of_not_binds rfl, ← countP_defined φ s.hoisted name.toOption.toList]
          exact congrArg (· + _) (Nat.zero_add _)
        rw [hdue, Tree.names_one rfl rfl, Tree.names_function, List.countP_append, List.countP_append]
        show _ + 0 = 0 + _ + _
        omega
      · exact (Tree.references_one rfl rfl).symm
  | classStmt definition =>
    intro s honly
    cases definition with
    | classDef name heritage members =>
      have hfree : ∀ i, some i ∈ (Tree.classDef name heritage members).positions →
          s.hoisted.contains i = false := by
        intro i hi
        refine Bool.eq_false_iff.mpr fun hin => ?_
        rw [← positions_one (t := Tree.classStmt (.classDef name heritage members)) rfl rfl] at hi
        cases honly i hi hin
      have hclass : Covers (do resolve heritage; inClass none (resolve members)) s _ _ _ _ :=
        .classParts (ih _ List.mem_cons_self) horderly.1 hfree
      refine hclass.recount (fun i hi => ?_) (fun φ => ?_) ?_
      · rwa [positions_one (t := Tree.classStmt _) rfl rfl]
      · have hdue : due φ s.hoisted (Tree.classStmt (.classDef name heritage members)) =
            name.toOption.toList.countP φ := by
          rw [due_of_not_binds rfl]
          exact (Nat.zero_add _).trans (congrArg (List.countP φ) (filter_skipped_of_ne (by decide) _))
        rw [hdue, Tree.names_one rfl rfl, Tree.names_classDef, List.countP_append, List.countP_append]
        show _ + 0 = 0 + _ + _
        omega
      · exact (Tree.references_one rfl rfl).symm
  | blockStmt inner =>
    intro s honly
    have honly' : OnlyFunctions s.hoisted inner := honly.visited rfl hnodup List.mem_cons_self
    refine (Covered.block rfl (hparts.1 rfl horderly.1) honly').recount (fun i hi => ?_) (fun φ => ?_) ?_
    · rwa [positions_one (t := Tree.blockStmt inner) rfl rfl]
    · rw [Tree.names_one (t := Tree.blockStmt inner) rfl rfl]
      rfl
    · exact (Tree.references_one rfl rfl).symm
  | forStmt init test step inner =>
    have hps : Tree.Each (fun _ t => Covered t) (Tree.forStmt init test step inner).visited :=
      ⟨hparts.1 rfl horderly.1, hparts.2.1 rfl horderly.2.1, hparts.2.2.1 rfl horderly.2.2.1,
        hparts.2.2.2.1 rfl horderly.2.2.2.1, trivial⟩
    have hdue : ∀ φ set, due φ set (Tree.forStmt init test step inner) =
        bodyDue φ set init + (due φ set test + (due φ set step + (due φ set inner + 0))) := by
      intro φ set
      rw [due_of_silent rfl test, due_of_silent rfl step, Nat.zero_add, Nat.zero_add]
      exact bodyDue_loop rfl init inner
    exact covered_loop rfl ⟨rfl, rfl⟩ rfl rfl rfl hdue ht hps.of_mem
  | forIn left right inner =>
    have hps : Tree.Each (fun _ t => Covered t) (Tree.forIn left right inner).visited :=
      ⟨hparts.1 rfl horderly.1, hparts.2.1 rfl horderly.2.1, hparts.2.2.1 rfl horderly.2.2.1, trivial⟩
    have hdue : ∀ φ set, due φ set (Tree.forIn left right inner) =
        bodyDue φ set left + (due φ set right + (due φ set inner + 0)) := by
      intro φ set
      rw [due_of_silent rfl right, Nat.zero_add]
      exact bodyDue_loop rfl left inner
    exact covered_loop rfl ⟨rfl, rfl⟩ rfl rfl rfl hdue ht hps.of_mem
  | forOf isAwait left right inner =>
    have hps : Tree.Each (fun _ t => Covered t) (Tree.forOf isAwait left right inner).visited :=
      ⟨hparts.1 rfl horderly.1, hparts.2.1 rfl horderly.2.1, hparts.2.2.1 rfl horderly.2.2.1, trivial⟩
    have hdue : ∀ φ set, due φ set (Tree.forOf isAwait left right inner) =
        bodyDue φ set left + (due φ set right + (due φ set inner + 0)) := by
      intro φ set
      rw [due_of_silent rfl right, Nat.zero_add]
      exact bodyDue_loop rfl left inner
    exact covered_loop rfl ⟨rfl, rfl⟩ rfl rfl rfl hdue ht hps.of_mem
  | switchStmt discriminant cases =>
    intro s honly
    have hinside : Tree.Each (fun _ t => OnlyFunctions s.hoisted t)
        (Tree.switchStmt discriminant cases).visited :=
      .of_forall fun p hp => honly.visited rfl hnodup hp
    rw [positions_two rfl rfl] at hnodup ⊢
    obtain ⟨-, -, hdisjoint⟩ := List.nodup_append.mp hnodup
    have hcases : ∀ (graph : ScopeGraph) (set : Std.TreeSet Nat),
        (∀ i, some i ∉ discriminant.positions → set.contains i = s.hoisted.contains i) →
        Covers (Analysis.within .block do declareLexical cases; resolve cases)
          { s with graph, hoisted := set } cases.positions (fun φ => cases.names.countP φ)
          (fun φ => bodyDue φ s.hoisted cases) cases.references :=
      fun graph set hset => Covered.beside rfl (hparts.2.1 rfl horderly.2.1) hinside.2.1
        fun i hi => hset i fun hi' => hdisjoint _ hi' _ hi rfl
    refine ((hparts.1 rfl horderly.1 s hinside.1).seq hcases).recount (fun i hi => hi) (fun φ => ?_)
      (Tree.references_two rfl rfl).symm
    rw [Tree.names_two rfl rfl, List.countP_append, due_of_silent rfl discriminant, Nat.zero_add]
    rfl
  | handler param inner =>
    intro s honly
    have hinside : Tree.Each (fun _ t => OnlyFunctions s.hoisted t) (Tree.handler param inner).visited :=
      .of_forall fun p hp => honly.visited rfl hnodup hp
    rw [positions_two rfl rfl] at hnodup ⊢
    obtain ⟨-, -, hdisjoint⟩ := List.nodup_append.mp hnodup
    have hscope : ∀ (graph : ScopeGraph) (current : ScopeId) (set : Std.TreeSet Nat),
        (∀ i, set.contains i = s.hoisted.contains i) →
        Covers (do resolve param; inBlock inner (resolve inner))
          { s with graph, current, hoisted := set } (param.positions ++ inner.positions)
          (fun φ => param.names.countP φ + inner.names.countP φ)
          (fun φ => param.boundNames.countP φ + bodyDue φ s.hoisted inner)
          (param.references ++ inner.references) := by
      intro graph current set hset
      have hparam := hparts.1 rfl horderly.1 { s with graph, current, hoisted := set }
        (hinside.1.congr fun i _ => hset i)
      have hblock : ∀ (graph' : ScopeGraph) (set' : Std.TreeSet Nat),
          (∀ i, some i ∉ param.positions → set'.contains i = set.contains i) →
          Covers (inBlock inner (resolve inner)) { s with graph := graph', current, hoisted := set' }
            inner.positions (fun φ => inner.names.countP φ) (fun φ => bodyDue φ s.hoisted inner)
            inner.references :=
        fun graph' set' hset' => Covered.beside rfl (hparts.2.1 rfl horderly.2.1) hinside.2.1
          fun i hi => (hset' i fun hi' => hdisjoint _ hi' _ hi rfl).trans (hset i)
      refine (hparam.seq hblock).recount (fun i hi => hi) (fun φ => ?_) rfl
      rw [due_of_binds (c := .option .binder) rfl]
    refine (Covers.named hscope).recount (fun i hi => hi) (fun φ => ?_) (Tree.references_two rfl rfl).symm
    rw [Tree.names_two rfl rfl, List.countP_append]
    show _ = _ + bodyDue φ s.hoisted inner + 0
    omega
  | _ =>
    first
    | exact absurd hquiet Bool.noConfusion
    | exact absurd hplain Bool.noConfusion

theorem alone_visited {c : Category} {t : Tree c} (hplain : t.plain = true) (hc : c.alone = true)
    (hname : ∀ n, (⟨c, t⟩ : Phrase) ≠ ⟨.binder, .nameBinder n⟩)
    (hshort : ∀ n v, (⟨c, t⟩ : Phrase) ≠ ⟨.binderProp, .shortBinder n v⟩) :
    ∀ p ∈ t.visited, p.1.alone = true := by
  refine Tree.Each.of_mem (motive := fun c _ => c.alone = true) ?_
  cases t
  case nameBinder n => exact absurd rfl (hname n)
  case shortBinder n v => exact absurd rfl (hshort n v)
  case access computed _ _ _ => cases computed <;> exact ⟨rfl, by trivial⟩
  case cons => exact ⟨hc, hc, trivial⟩
  case some => exact ⟨hc, trivial⟩
  all_goals first
    | exact absurd hplain Bool.false_ne_true
    | exact absurd hc Bool.false_ne_true
    | exact trivial
    | exact ⟨rfl, trivial⟩
    | exact ⟨rfl, rfl, trivial⟩
    | exact ⟨rfl, rfl, rfl, trivial⟩

/-- Every phrase that is walked by itself is covered. -/
theorem covered {c : Category} (t : Tree c) (hc : c.alone = true) (ht : t.Orderly) : Covered t := by
  induction t using Tree.induction_on_phrases with
  | step c t ih =>
    cases hplain : t.plain with
    | false =>
      cases hquiet : c.quiet with
      | true => exact covered_of_quiet hquiet hplain hc ht ih
      | false => exact covered_of_statement hquiet hplain ht ih
    | true =>
      have hpart : ∀ p ∈ t.visited, p.1.alone = true → Covered p.2 := by
        intro p hp hp'
        have hmem : p ∈ t.parts := Tree.mem_parts_of_visited hp
        exact ih p hmem p p.2.self_mem_phrases hp' (ht.part hmem)
      by_cases hname : ∃ n, (⟨c, t⟩ : Phrase) = ⟨.binder, .nameBinder n⟩
      · obtain ⟨n, hn⟩ := hname
        cases hn
        exact covered_nameBinder n
      by_cases hshort : ∃ n v, (⟨c, t⟩ : Phrase) = ⟨.binderProp, .shortBinder n v⟩
      · obtain ⟨n, v, hn⟩ := hshort
        cases hn
        exact covered_shortBinder (hpart ⟨_, v⟩ (List.mem_cons_of_mem _ List.mem_cons_self) rfl)
      have hname' := fun n hn => hname ⟨n, hn⟩
      have hshort' := fun n v hn => hshort ⟨n, v, hn⟩
      exact covered_of_plain hplain hc ht hname' hshort' fun p hp =>
        hpart p hp (alone_visited hplain hc hname' hshort' p hp)

end Scope.Analysis

/-! ## Programs -/

/-- A graph accounts for the identifiers that walks come to. -/
structure ScopeGraph.Accounts (g : ScopeGraph) (body : Block) : Prop where
  /-- The identifiers that are reached are those that have a binding and the references that have
  none. -/
  reached : ∀ i, some i ∈ body.names.map Tree.nameId? ↔
    (∃ b, g.bindingAt i = some b) ∨ some i ∈ body.references.map Tree.nameId? ∧ g.bindingAt i = none
  /-- A reference that has no binding has a global name. -/
  global : ∀ text i, .ident text (some i) ∈ body.references → g.bindingAt i = none →
    g.isGlobal text = true
  /-- An identifier is recorded by its binding alone, once, as a declaration or as a reference. -/
  recorded : ∀ i b, g.bindingAt i = some b → ∀ (b' : BindingId) (x : Binding),
    g.bindings[b']? = some x → x.recordings i = if b' = b then 1 else 0
  /-- The binding of an identifier was declared with the name that the identifier has. -/
  named : ∀ i b, g.bindingAt i = some b → ∃ x, g.bindings[b]? = some x ∧
    ∀ n ∈ body.names, n.nameId? = some i → n.nameText? = some x.declaredName

/-- What is referred to is reached. -/
theorem Tree.references_subset {c : Category} (t : Tree c) : t.references ⊆ t.names := by
  induction t using Tree.induction_on_parts with
  | step c t ih =>
    intro n hn
    rw [references_eq, List.mem_append] at hn
    rw [names_eq, List.mem_append]
    refine .inr ?_
    rcases hn with hn | hn
    · cases t with
      | identExpr name =>
        obtain rfl := List.mem_singleton.mp hn
        exact List.mem_flatMap.mpr ⟨_, List.mem_cons_self, n.names_name ▸ List.mem_cons_self⟩
      | shorthand name =>
        obtain rfl := List.mem_singleton.mp hn
        exact List.mem_flatMap.mpr ⟨_, List.mem_cons_self, n.names_name ▸ List.mem_cons_self⟩
      | _ => cases hn
    · obtain ⟨p, hp, hn⟩ := List.mem_flatMap.mp hn
      exact List.mem_flatMap.mpr ⟨p, hp, ih p (mem_parts_of_visited hp) hn⟩

/-- A name is among as many others as are counted of its kind. -/
theorem Tree.mem_iff_of_countP {ns ms : List Name}
    (h : ∀ φ : Name → Bool, ns.countP φ = ms.countP φ) (n : Name) : n ∈ ns ↔ n ∈ ms := by
  classical
  have hmem : ∀ ns : List Name, n ∈ ns ↔ 0 < ns.countP fun m => decide (m = n) := fun ns => by
    rw [List.countP_pos_iff]
    refine ⟨fun hn => ⟨n, hn, decide_eq_true rfl⟩, fun ⟨m, hm, hn⟩ => ?_⟩
    exact of_decide_eq_true hn ▸ hm
  rw [hmem, hmem, h]

namespace Program

open Scope Scope.Analysis

/-- The graph of a program records the identifiers that walks come to. -/
theorem records_scopeGraph {p : Program} (hp : p.body.Orderly) :
    ∃ ns, p.scopeGraph.Records ns p.body.references ∧ ∀ n, n ∈ ns ↔ n ∈ p.body.names := by
  have hfree : ∀ i, some i ∈ p.body.positions →
      ({ strict := p.body.isStrict } : State).hoisted.contains i = false := fun _ _ => rfl
  have hbody : Covers (do declareBody p.body; resolve p.body) { strict := p.body.isStrict }
      p.body.positions (fun φ => p.body.names.countP φ) (fun _ => 0) p.body.references := by
    refine Covers.body hp.positioned hfree (fun i hi => hi) fun graph hs set hsub hset => ?_
    refine (covered p.body rfl hp { strict := p.body.isStrict, graph, hoisted := set }
      (.body hfree hsub hset)).recount (fun i hi => hi) (fun φ => ?_) rfl
    exact congrArg (p.body.names.countP φ + ·) (Nat.zero_add (due φ set p.body)).symm
  obtain ⟨steps, hoisted, heq, -, hcount, hrefs⟩ := hbody
  have hgraph : p.scopeGraph = ScopeGraph.empty.replay steps := congrArg State.graph heq
  have hsame := p.body.positions_of_names
  have hids : ((named steps).map Tree.nameId?).Nodup := by
    refine List.nodup_iff_count.mpr fun i => ?_
    have hnodup := List.nodup_iff_count.mp (hp.positioned.distinct.sublist hsame) i
    rw [List.count, List.countP_map] at hnodup ⊢
    exact Nat.le_trans (Nat.le_of_eq (hcount _)) hnodup
  have hmem : ∀ n, n ∈ named steps ↔ n ∈ p.body.names := Tree.mem_iff_of_countP hcount
  have hplaced : none ∉ (named steps).map Tree.nameId? := by
    intro hnone
    obtain ⟨n, hn, hid⟩ := List.mem_map.mp hnone
    exact hp.positioned.placed (hsame.subset (hid ▸ List.mem_map_of_mem ((hmem n).mp hn)))
  have hrecords := ScopeGraph.records_empty.replay hplaced hids
  rw [List.nil_append, List.nil_append, hrefs, ← hgraph] at hrecords
  exact ⟨_, hrecords, hmem⟩

/-- **Analysis and walks agree.** In a program that was read, if declarations stand in statement lists
and in the heads of loops, the graph accounts for the identifiers that walks come to. -/
theorem accounts_read {source : String} {p : Program} (h : Program.read source = .ok p)
    (hlisted : p.body.Listed) : p.scopeGraph.Accounts p.body := by
  have hp : p.body.Orderly := ⟨p.positioned_read h, p.sourced_read h, hlisted⟩
  obtain ⟨ns, hrecords, hmem⟩ := records_scopeGraph hp
  have hdistinct : (p.body.names.map Tree.nameId?).Nodup :=
    hp.positioned.distinct.sublist p.body.positions_of_names
  refine ⟨fun i => ⟨fun hi => ?_, ?_⟩, fun text i hn hnone => ?_, fun i b hi b' x hx => ?_,
    fun i b hi => ?_⟩
  · obtain ⟨n, hn, hid⟩ := List.mem_map.mp hi
    cases hbinding : p.scopeGraph.bindingAt i with
    | some b => exact .inl ⟨b, rfl⟩
    | none =>
      have hreference := (hrecords.unbound n ((hmem n).mpr hn) i hid hbinding).1
      exact .inr ⟨hid ▸ List.mem_map_of_mem hreference, rfl⟩
  · rintro (⟨b, hb⟩ | ⟨hi, -⟩)
    · obtain ⟨-, -, n, hn, hid, -⟩ := hrecords.owned i b hb
      exact hid ▸ List.mem_map_of_mem ((hmem n).mp hn)
    · obtain ⟨n, hn, hid⟩ := List.mem_map.mp hi
      exact hid ▸ List.mem_map_of_mem (p.body.references_subset hn)
  · exact (hrecords.unbound _ ((hmem _).mpr (p.body.references_subset hn)) i rfl hnone).2 text rfl
  · rw [hrecords.once b' x hx i, hi]
    exact if_congr (Option.some_inj.trans eq_comm) rfl rfl
  · obtain ⟨x, hx, n, hn, hid, htext⟩ := hrecords.owned i b hi
    refine ⟨x, hx, fun m hm hmid => ?_⟩
    obtain rfl := List.inj_on_of_nodup_map hdistinct hm ((hmem n).mp hn) (hmid.trans hid.symm)
    exact htext

/-- A block function that is hoisted, a loop with a name of its own, and a name that is declared
nowhere. -/
theorem accounts_read_hoistedUse :
    ∃ p, Program.read "var a; { function f(b) { return a + b + c; } } for (let i of f) i;" = .ok p ∧
      p.body.Listed ∧ p.scopeGraph.Accounts p.body := by
  have hread : ((Program.read
      "var a; { function f(b) { return a + b + c; } } for (let i of f) i;").toOption.map fun p =>
        p.body.phrases.all fun q => !q.2.governsDeclaration) = some true := by
    rw [toOption_read, String.toList_ofList]
    decide +kernel
  cases hp : Program.read "var a; { function f(b) { return a + b + c; } } for (let i of f) i;" with
  | error e =>
    rw [hp] at hread
    cases hread
  | ok p =>
    have hlisted : p.body.Listed := by
      rw [hp] at hread
      simpa [Except.toOption, Tree.Listed, Tree.Everywhere] using hread
    exact ⟨p, rfl, hlisted, accounts_read hp hlisted⟩

end Program

end Unminify
