import Mathlib.Data.List.Nodup
import Unminify.Proofs.Scope.Due
import Unminify.Proofs.Scope.Recording

/-!
# What analysis covers

The analysis of a phrase makes steps, each about one identifier or none. `Covers` says which
identifiers they are about: all of some, apart from those that are due to the scopes around the phrase,
counted by any condition on identifiers.

A function declares the names of its body first, and finds out on the way which block functions are
hoisted (`Hoists`). What it declares is what is due of its body afterwards (`due_of_hoists`), so that
the body leaves nothing uncovered.
-/

namespace Unminify

open ScopeGraph

namespace Scope

/-- Declarations as steps. -/
theorem State.declaring_eq (s : State) (ds : List (Name × BindingKind)) :
    s.declaring ds =
      { s with graph := s.graph.replay (ds.map fun d => .declares s.current d.1 d.2) } := by
  rw [declaring, replay, List.foldl_map]
  rfl

theorem named_declares (s : ScopeId) (ds : List (Name × BindingKind)) :
    named (ds.map fun d => .declares s d.1 d.2) = ds.map Prod.fst := by
  rw [named, List.filterMap_map]
  exact congrFun List.filterMap_eq_map ds

theorem referred_declares (s : ScopeId) (ds : List (Name × BindingKind)) :
    referred (ds.map fun d => .declares s d.1 d.2) = [] := by
  rw [referred, List.filterMap_map]
  exact List.filterMap_eq_nil_iff.mpr fun _ _ => rfl

namespace Analysis

/-- The steps of an analysis are about as many identifiers as there are, apart from those that are owed.
The references among them are these. Nothing is hoisted but what stands at these positions. -/
def Covers (a : Analysis Unit) (s : State) (is : List (Option Nat)) (all owed : (Name → Bool) → Nat)
    (refs : List Name) : Prop :=
  ∃ steps hoisted, after a s = { s with graph := s.graph.replay steps, hoisted } ∧
    (∀ i, some i ∉ is → hoisted.contains i = s.hoisted.contains i) ∧
    (∀ φ, (named steps).countP φ + owed φ = all φ) ∧ referred steps = refs

section

variable {a b : Analysis Unit} {s : State} {is js : List (Option Nat)}
  {all all' owed owed' : (Name → Bool) → Nat} {refs refs' : List Name}

theorem covers_nothing (s : State) : Covers (pure ()) s [] (fun _ => 0) (fun _ => 0) [] :=
  ⟨[], s.hoisted, rfl, fun _ _ => rfl, fun _ => rfl, rfl⟩

/-- What is covered may be counted in another way. -/
theorem Covers.recount (h : Covers a s is all owed refs) (hsub : ∀ i ∈ is, i ∈ js)
    (hsum : ∀ φ, all' φ + owed φ = all φ + owed' φ) (hrefs : refs = refs') :
    Covers a s js all' owed' refs' := by
  obtain ⟨steps, hoisted, heq, hframe, hcount, href⟩ := h
  refine ⟨steps, hoisted, heq, fun i hi => hframe i fun hi' => hi (hsub _ hi'), fun φ => ?_,
    href.trans hrefs⟩
  have h := hcount φ
  have h' := hsum φ
  omega

theorem Covers.seq (ha : Covers a s is all owed refs)
    (hb : ∀ (graph : ScopeGraph) (hoisted : Std.TreeSet Nat),
      (∀ i, some i ∉ is → hoisted.contains i = s.hoisted.contains i) →
        Covers b { s with graph, hoisted } js all' owed' refs') :
    Covers (do a; b) s (is ++ js) (fun φ => all φ + all' φ) (fun φ => owed φ + owed' φ)
      (refs ++ refs') := by
  obtain ⟨steps, hoisted, heq, hframe, hcount, rfl⟩ := ha
  obtain ⟨steps', hoisted', heq', hframe', hcount', rfl⟩ := hb (s.graph.replay steps) hoisted hframe
  refine ⟨steps ++ steps', hoisted', ?_, fun i hi => ?_, fun φ => ?_, referred_append _ _⟩
  · rw [after_seq, heq, heq', ScopeGraph.replay, ScopeGraph.replay, ScopeGraph.replay, List.foldl_append]
  · rw [List.mem_append, not_or] at hi
    exact (hframe' i hi.2).trans (hframe i hi.1)
  · rw [named_append, List.countP_append]
    have h := hcount φ
    have h' := hcount' φ
    show _ + (owed φ + owed' φ) = all φ + all' φ
    omega

/-- To open a scope is a step about no identifier. -/
theorem Covers.within {kind : ScopeKind}
    (h : ∀ (graph : ScopeGraph) (current : ScopeId), Covers a { s with graph, current } is all owed refs) :
    Covers (within kind a) s is all owed refs := by
  obtain ⟨steps, hoisted, heq, hframe, hcount, href⟩ :=
    h (s.graph.openScope kind (some s.current)) s.graph.scopes.size
  refine ⟨.opens kind (some s.current) :: steps, hoisted, ?_, hframe, hcount, href⟩
  rw [after_within, heq]
  rfl

theorem Covers.withStrictness {strict : Bool} (h : Covers a { s with strict } is all owed refs) :
    Covers (withStrictness strict a) s is all owed refs := by
  obtain ⟨steps, hoisted, heq, hframe, hcount, href⟩ := h
  refine ⟨steps, hoisted, ?_, hframe, hcount, href⟩
  rw [after_withStrictness, heq]

theorem covers_of_declaring {ds : List (Name × BindingKind)} (h : after a s = s.declaring ds) :
    Covers a s [] (fun φ => (ds.map Prod.fst).countP φ) (fun _ => 0) [] := by
  refine ⟨_, s.hoisted, h.trans (s.declaring_eq ds), fun _ _ => rfl, fun φ => ?_,
    referred_declares s.current ds⟩
  rw [named_declares, Nat.add_zero]

theorem covers_declareAll (kind : BindingKind) (ns : List Name) (s : State) :
    Covers (declareAll kind ns) s [] (fun φ => ns.countP φ) (fun _ => 0) [] := by
  have h := covers_of_declaring (after_declareAll kind ns s)
  rwa [List.map_map, Function.comp_def, List.map_id'] at h

theorem covers_declareLexical {c : Category} (t : Tree c) (s : State) :
    Covers (declareLexical t) s [] (fun φ => listDue φ s.hoisted t) (fun _ => 0) [] :=
  covers_of_declaring (after_declareLexical t s)

theorem covers_reference (n : Name) (s : State) :
    Covers (reference n) s [] (fun φ => [n].countP φ) (fun _ => 0) [n] :=
  ⟨[.refers s.current n], s.hoisted, after_reference n s, fun _ _ => rfl, fun _ => rfl, rfl⟩

end

/-! ## Bodies of functions -/

theorem after_hoistBlockFunction_of_blocked {name : String} {id : Option Nat} {s : State}
    (h : isBlocked s name = true) : after (hoistBlockFunction (.ident name id)) s = s := by
  show after (if isBlocked s name then pure () else do
    declare .function (.ident name id)
    modify fun s => { s with hoisted := id.toList.foldl (·.insert ·) s.hoisted }) s = _
  rw [h]
  rfl

/-- The positions that count as hoisted once the functions `fs` were hoisted. -/
def Hoists (before : Std.TreeSet Nat) (fs : List Name) (now : Std.TreeSet Nat) : Prop :=
  ∀ i, now.contains i = (before.contains i || (fs.map Tree.nameId?).contains (some i))

/-- Block functions are hoisted, apart from those that a binding of their name is in the way of. -/
theorem after_hoistSome (fs : List Name) (s : State) :
    ∃ hs hoisted, hs.Sublist fs ∧ Hoists s.hoisted hs hoisted ∧
      after (fs.forM hoistBlockFunction) s = { s.declaring (hs.map (·, .function)) with hoisted } := by
  rw [after_forM]
  induction fs generalizing s with
  | nil => exact ⟨[], s.hoisted, .refl _, fun i => (Bool.or_false _).symm, rfl⟩
  | cons f fs ih =>
    rw [List.foldl_cons]
    cases f with
    | nameHole k =>
      obtain ⟨hs, hoisted, hsub, hset, heq⟩ := ih s
      exact ⟨hs, hoisted, hsub.cons _, hset, heq⟩
    | ident name id =>
      cases hblocked : isBlocked s name with
      | true =>
        rw [after_hoistBlockFunction_of_blocked hblocked]
        obtain ⟨hs, hoisted, hsub, hset, heq⟩ := ih s
        exact ⟨hs, hoisted, hsub.cons _, hset, heq⟩
      | false =>
        rw [after_hoistBlockFunction hblocked]
        obtain ⟨hs, hoisted, hsub, hset, heq⟩ := ih { s.declaring [(.ident name id, .function)] with
          hoisted := id.toList.foldl (·.insert ·) s.hoisted }
        refine ⟨.ident name id :: hs, hoisted, hsub.cons_cons _, fun i => ?_, heq⟩
        rw [hset, contains_insertId, List.map_cons, List.contains_cons, Bool.or_assoc]
        congr 2
        exact Bool.eq_iff_iff.mpr (beq_iff_eq.trans (eq_comm.trans beq_iff_eq.symm))

section

variable {body : Block} {before now : Std.TreeSet Nat} {hs : List Name}

/-- What a body declares. -/
theorem after_declareBody_of_free {s : State}
    (hfree : ∀ i, some i ∈ body.positions → s.hoisted.contains i = false) :
    ∃ hs hoisted, hs.Sublist (body.blockFunctions false) ∧ Hoists s.hoisted hs hoisted ∧
      after (declareBody body) s =
        { s.declaring (bodyNames body ++ hs.map (·, .function)) with hoisted } := by
  have hdecl : after (do declareAll .var body.hoistedVars; declareLexical body) s =
      s.declaring (bodyNames body) := by
    rw [after_seq, after_declareAll, after_declareLexical, bodyNames, State.declaring_append]
    exact congrArg _ (filter_skipped_of_free hfree)
  have hsplit : after (declareBody body) s =
      after (if !(s.declaring (bodyNames body)).strict then
        (body.blockFunctions false).forM hoistBlockFunction else pure ())
          (s.declaring (bodyNames body)) := by
    rw [← hdecl]
    rfl
  have hstrict : (s.declaring (bodyNames body)).strict = s.strict := rfl
  rw [hsplit, hstrict]
  cases s.strict with
  | true =>
    refine ⟨[], s.hoisted, List.nil_sublist _, fun i => (Bool.or_false _).symm, ?_⟩
    rw [List.map_nil, List.append_nil]
    rfl
  | false =>
    obtain ⟨hs, hoisted, hsub, hset, heq⟩ :=
      after_hoistSome (body.blockFunctions false) (s.declaring (bodyNames body))
    refine ⟨hs, hoisted, hsub, hset, heq.trans ?_⟩
    rw [State.declaring_append]

/-- Block functions have positions of their own. -/
theorem nodup_blockFunctions {c : Category} {t : Tree c} (hnodup : t.positions.Nodup) :
    ((t.blockFunctions true).map Tree.nameId?).Nodup := by
  refine List.nodup_iff_count.mpr fun i => ?_
  have hcount := (Tree.counted i t).nested false
  have hle : Tree.occurs i t ≤ 1 := List.nodup_iff_count.mp hnodup i
  have hnames : Tree.tally i (Tree.blockNames false true t) = ((t.blockFunctions true).map Tree.nameId?).count i := rfl
  simp only [Tree.lifted] at hcount
  omega

/-- What stands in a statement list itself is not a block function nested in it. -/
theorem not_mem_of_lexicalNames {n : Name} (hnodup : body.positions.Nodup)
    (hn : n ∈ body.lexicalNames.map Prod.fst) : n.nameId? ∉ (body.blockFunctions false).map Tree.nameId? := by
  intro hmem
  have hcount := (Tree.counted n.nameId? body).top rfl false
  have hle : Tree.occurs n.nameId? body ≤ 1 := List.nodup_iff_count.mp hnodup n.nameId?
  have hlist : 0 < Tree.tally n.nameId? (body.lexicalNames.map Prod.fst) :=
    List.count_pos_iff.mpr (List.mem_map_of_mem hn)
  have hnested : 0 < Tree.tally n.nameId? (Tree.blockNames false false body) := List.count_pos_iff.mpr hmem
  simp only [Tree.liftedTop] at hcount
  omega

/-- Of the block functions of a body, those count as hoisted that were hoisted. -/
theorem filter_isHoisted (hbody : body.Positioned)
    (hfree : ∀ i, some i ∈ body.positions → before.contains i = false)
    (hsub : hs.Sublist (body.blockFunctions false)) (hset : Hoists before hs now) :
    ((body.blockFunctions true).filter (isHoisted now)).Perm hs := by
  have hnodup := nodup_blockFunctions hbody.distinct
  have hnodup' : (body.blockFunctions false).Nodup := by
    refine List.Nodup.of_map Tree.nameId? (List.nodup_iff_count.mpr fun i => ?_)
    have hcount := (Tree.counted i body).top rfl false
    have hle : Tree.occurs i body ≤ 1 := List.nodup_iff_count.mp hbody.distinct i
    have hnames : Tree.tally i (Tree.blockNames false false body) =
      ((body.blockFunctions false).map Tree.nameId?).count i := rfl
    simp only [Tree.liftedTop] at hcount
    omega
  refine (List.perm_ext_iff_of_nodup (hnodup.of_map.filter _) (hnodup'.sublist hsub)).mpr fun n => ?_
  rw [List.mem_filter]
  constructor
  · rintro ⟨hn, hin⟩
    obtain ⟨i, hi, hin⟩ := (Option.any_eq_true _ _).mp hin
    have hpos : some i ∈ body.positions := hi ▸ body.blockFunctions_positions n hn
    rw [hset i, hfree i hpos, Bool.false_or] at hin
    obtain ⟨m, hm, hmi⟩ := List.mem_map.mp (List.contains_iff_mem.mp hin)
    have hm' := body.blockFunctions_subset m (hsub.subset hm)
    obtain rfl := List.inj_on_of_nodup_map hnodup hn hm' (hi.trans hmi.symm)
    exact hm
  · intro hn
    have hn' := body.blockFunctions_subset n (hsub.subset hn)
    refine ⟨hn', ?_⟩
    cases hid : n.nameId? with
    | none => exact absurd (hid ▸ body.blockFunctions_positions n hn') hbody.placed
    | some i =>
      have hmem : (hs.map Tree.nameId?).contains (some i) = true :=
        List.contains_iff_mem.mpr (hid ▸ List.mem_map_of_mem hn)
      rw [isHoisted, hid, Option.any_some, hset i, hmem, Bool.or_true]

/-- The names of a body that is entered, none of which counts as hoisted. -/
theorem filter_skipped_of_hoists (hbody : body.Positioned)
    (hfree : ∀ i, some i ∈ body.positions → before.contains i = false)
    (hsub : hs.Sublist (body.blockFunctions false)) (hset : Hoists before hs now) :
    body.lexicalNames.filter (!skipped now ·) = body.lexicalNames := by
  rw [← filter_skipped_of_free hfree, List.filter_filter]
  refine List.filter_congr fun d hd => ?_
  have hsame : skipped now d = skipped before d := by
    obtain ⟨n, kind⟩ := d
    cases hid : n.nameId? with
    | none => simp only [skipped, hid, Option.any_none]
    | some i =>
      have hnot : (hs.map Tree.nameId?).contains (some i) = false := by
        refine Bool.eq_false_iff.mpr fun hin => ?_
        refine not_mem_of_lexicalNames hbody.distinct (List.mem_map_of_mem hd) ?_
        rw [hid]
        exact (hsub.map _).subset (List.contains_iff_mem.mp hin)
      simp only [skipped, hid, Option.any_some, hset i, hnot, Bool.or_false]
  rw [hsame, Bool.and_self]

/-- What is due of a body is what was declared for it. -/
theorem due_of_hoists (φ : Name → Bool) (hbody : body.Positioned)
    (hfree : ∀ i, some i ∈ body.positions → before.contains i = false)
    (hsub : hs.Sublist (body.blockFunctions false)) (hset : Hoists before hs now) :
    due φ now body = ((bodyNames body ++ hs.map (·, BindingKind.function)).map Prod.fst).countP φ := by
  rw [due_of_not_binds rfl, bodyDue, listDue, (filter_isHoisted hbody hfree hsub hset).countP_eq,
    filter_skipped_of_hoists hbody hfree hsub hset]
  simp only [bodyNames, List.map_append, List.map_map, Function.comp_def, List.map_id',
    List.countP_append]
  omega

end

end Analysis

end Scope

end Unminify
