import Unminify.Pattern.Match
import Unminify.Proofs.Syntax.Sameness

/-!
# Fitting

A pattern **fits** a tree under an environment when the two agree everywhere but at the pattern's
holes, and each hole faces what the environment holds for it. Nothing is bound on the way, so fitting
is a property of pattern, tree and environment alone, with no order of comparison in it.

Matching is fitting with the environment found on the way:

* `Matches.effect`, `Matches.fits` — a match that succeeds has bound exactly the holes of the pattern
  and ends in an environment under which the pattern fits;
* `matches_of_fits` — a pattern that fits under some environment matches, and what is bound is the
  same as what that environment holds.

Both follow `demand`, which says once what matching asks for at a pair of phrases.
-/

namespace Unminify

/-! ## Environments -/

namespace Bound

theorem same_symm {a b : Bound} (h : a.same b = true) : b.same a = true := by
  cases a <;> cases b <;> first | exact Tree.same_symm h | cases h

theorem same_trans {a b d : Bound} (hab : a.same b = true) (hbd : b.same d = true) :
    a.same d = true := by
  cases a <;> cases b <;> first | cases hab | skip
  all_goals cases d <;> first | exact Tree.same_trans hab hbd | cases hbd

end Bound

namespace Environment

/-- One environment holds all that another one holds. -/
def Le (env env' : Environment) : Prop := ∀ h v, env.get? h = some v → env'.get? h = some v

theorem run_bind_of_some {env : Environment} {h : Hole} {v w : Bound} (hw : env.get? h = some w) :
    (bind h v).run env = (w.same v, env) := by
  unfold bind
  simp only [StateT.run_bind, StateT.run_get, pure_bind, hw, StateT.run_pure]
  rfl

theorem run_bind_of_none {env : Environment} {h : Hole} {v : Bound} (hfree : env.get? h = none) :
    (bind h v).run env = (true, env.insert h v) := by
  unfold bind
  simp only [StateT.run_bind, StateT.run_get, pure_bind, hfree, StateT.run_modify, StateT.run_pure]
  rfl

/-- What an environment holds is the same as what another one holds. -/
def Reflects (env s : Environment) : Prop :=
  ∀ k v, env.get? k = some v → ∃ w, s.get? k = some w ∧ w.same v = true

theorem Le.refl (env : Environment) : env.Le env := fun _ _ h => h

theorem Le.trans {env₁ env₂ env₃ : Environment} (h : env₁.Le env₂) (h' : env₂.Le env₃) :
    env₁.Le env₃ :=
  fun k v hk => h' k v (h k v hk)

/-- A new binding is found, and leaves the others as they were. -/
theorem get?_insert {env : Environment} {h : Hole} (hfree : env.get? h = none) (v : Bound)
    (k : Hole) : (env.insert h v).get? k = if k = h then some v else env.get? k := by
  have hinsert : env.insert h v = ⟨env.entries ++ [(h, v)]⟩ := by
    rw [insert, hfree]
  rw [hinsert, get?, List.lookup_append]
  by_cases hk : k = h
  · subst hk
    have hnone : env.entries.lookup k = none := hfree
    rw [hnone, if_pos rfl]
    simp only [Option.none_or, List.lookup_cons, beq_self_eq_true]
  · have hne : (k == h) = false := beq_false_of_ne hk
    simp only [List.lookup_cons, hne, List.lookup_nil, Option.or_none, if_neg hk]
    rfl

theorem le_insert {env : Environment} {h : Hole} (hfree : env.get? h = none) (v : Bound) :
    env.Le (env.insert h v) := by
  intro k w hk
  have hne : k ≠ h := by
    rintro rfl
    rw [hfree] at hk
    cases hk
  rw [get?_insert hfree, if_neg hne, hk]

end Environment

namespace Pattern

/-! ## Demands -/

/-- What matching asks for where a pattern faces a phrase. -/
inductive Demand
  /-- The hole stands for the value. -/
  | bind (hole : Hole) (value : Bound)
  /-- There is no match. -/
  | refuse
  /-- Forms and parts agree. -/
  | compare

/-- The demand at a pair of phrases. -/
def demand (options : MatchOptions) : {c : Category} → Tree c → Tree c → Demand
  | .stmt, .stmtHole index multiLine, n =>
    if multiLine && !options.compoundKinds.contains n.kind then .refuse
    else .bind ⟨.statement, index⟩ (.stmt n)
  | .expr, .exprHole index _, n => .bind ⟨.expression, index⟩ (.expr n)
  | .name, .nameHole index, .ident text id => .bind ⟨.generic, index⟩ (.name (.ident text id))
  | .name, .nameHole _, _ => .refuse
  | .forHead, .exprHead (.exprHole index true), .declHead decl =>
    .bind ⟨.expression, index⟩ (.decl decl)
  | _, _, _ => .compare

theorem matchHook_eq (options : MatchOptions) {c : Category} (p n : Tree c)
    (children : Unit → StateM Environment Bool) :
    matchHook options c p n children =
      match demand options p n with
      | .bind h v => Environment.bind h v
      | .refuse => pure false
      | .compare => children () := by
  cases p with
  | stmtHole index multiLine =>
    simp only [matchHook, demand]
    split <;> rfl
  | nameHole index => cases n <;> rfl
  | exprHead e =>
    cases e with
    | exprHole index orDeclaration => cases orDeclaration <;> cases n <;> rfl
    | _ => rfl
  | _ => rfl

/-- The pairs at which a hole is bound, with the value. -/
inductive Binds (options : MatchOptions) : {c : Category} → Tree c → Tree c → Hole → Bound → Prop
  | stmt {index : Nat} {multiLine : Bool} {n : Stmt} :
    (multiLine = true → options.compoundKinds.contains n.kind = true) →
      Binds options (.stmtHole index multiLine) n ⟨.statement, index⟩ (.stmt n)
  | expr {index : Nat} {orDeclaration : Bool} {n : Expr} :
    Binds options (.exprHole index orDeclaration) n ⟨.expression, index⟩ (.expr n)
  | name {index : Nat} {text : String} {id : Option Nat} :
    Binds options (.nameHole index) (.ident text id) ⟨.generic, index⟩ (.name (.ident text id))
  | decl {index : Nat} {n : VarDecl} :
    Binds options (.exprHead (.exprHole index true)) (.declHead n) ⟨.expression, index⟩ (.decl n)

variable {options : MatchOptions}

theorem binds_of_demand {c : Category} {p n : Tree c} {h : Hole} {v : Bound}
    (hd : demand options p n = .bind h v) : Binds options p n h v := by
  cases p with
  | stmtHole index multiLine =>
    simp only [demand] at hd
    split at hd
    · cases hd
    · rename_i hkind
      cases hd
      refine .stmt fun hm => ?_
      simpa only [hm, Bool.true_and, Bool.not_eq_true', Bool.not_eq_false] using hkind
  | nameHole index => cases n <;> cases hd; exact .name
  | exprHole index _ => cases hd; exact .expr
  | exprHead e =>
    cases e with
    | exprHole index orDeclaration => cases orDeclaration <;> cases n <;> cases hd; exact .decl
    | _ => cases hd
  | _ => cases hd

theorem demand_of_binds {c : Category} {p n : Tree c} {h : Hole} {v : Bound}
    (hb : Binds options p n h v) : demand options p n = .bind h v := by
  cases hb with
  | stmt hkind =>
    simp only [demand]
    rw [if_neg]
    simpa only [Bool.and_eq_true, Bool.not_eq_true', not_and, Bool.not_eq_false] using hkind
  | _ => rfl

/-- A hole that is bound is the only hole of its pattern. -/
theorem Binds.holes {c : Category} {p n : Tree c} {h : Hole} {v : Bound}
    (hb : Binds options p n h v) : p.holes = [h] := by
  cases hb <;> rfl

/-- What is bound is the same as itself if it has no non-numbers. -/
theorem Binds.same_self {c : Category} {p n : Tree c} {h : Hole} {v : Bound}
    (hb : Binds options p n h v) (hn : n.NaNFree) : v.same v = true := by
  cases hb with
  | decl => exact Tree.same_refl (hn.part List.mem_cons_self)
  | _ => exact Tree.same_refl hn

/-- What is compared is not a hole. -/
theorem hole?_of_compare {c : Category} {p n : Tree c}
    (hd : demand options p n = .compare) : p.hole? = none := by
  cases p with
  | stmtHole index multiLine =>
    simp only [demand] at hd
    split at hd <;> cases hd
  | nameHole index => cases n <;> cases hd
  | exprHole index _ => cases hd
  | _ => rfl

/-- A phrase that is not a hole is compared with phrases of its form. -/
theorem demand_of_sameForm {c : Category} {p n : Tree c} (hp : p.hole? = none)
    (h : p.sameForm n = true) : demand options p n = .compare := by
  have hidx := (Tree.sameForm_iff.mp h).1
  cases p with
  | stmtHole _ _ => cases hp
  | exprHole _ _ => cases hp
  | nameHole _ => cases hp
  | exprHead e =>
    cases n with
    | declHead _ => cases hidx
    | exprHead _ =>
      cases e with
      | exprHole index orDeclaration => cases orDeclaration <;> rfl
      | _ => rfl
  | _ => rfl

/-- A hole that can stand for a phrase can stand for all that is the same. -/
theorem Binds.of_same {c : Category} {p n n' : Tree c} {k : Hole} {v : Bound}
    (hb : Binds options p n k v) (h : n.same n' = true) :
    ∃ v', Binds options p n' k v' ∧ v.same v' = true := by
  have hidx := (Tree.sameForm_iff.mp (Tree.same_iff.mp h).1).1
  cases hb with
  | stmt hkind =>
    refine ⟨.stmt n', .stmt fun hm => ?_, h⟩
    rw [← Tree.kind_eq_of_sameForm (Tree.same_iff.mp h).1]
    exact hkind hm
  | expr => exact ⟨.expr n', .expr, h⟩
  | name =>
    cases n' with
    | ident text id => exact ⟨.name (.ident text id), .name, h⟩
    | nameHole _ => cases hidx
  | decl =>
    cases n' with
    | declHead d => exact ⟨.decl d, .decl, h⟩
    | exprHead _ => cases hidx

/-! ## Fitting -/

/-- What fitting asks for at a pair of phrases. -/
def fitsHook (options : MatchOptions) (env : Environment) : Tree.PairHook Id :=
  fun _ p n children =>
    match demand options p n with
    | .bind h v => (env.get? h).any (·.same v)
    | .refuse => false
    | .compare => children ()

/-- Whether a pattern fits a tree under an environment. -/
def fits (options : MatchOptions) (env : Environment) {c : Category} (p n : Tree c) : Bool :=
  (p.compare (fitsHook options env) n).run

theorem fits_of_binds {env : Environment} {c : Category} {p n : Tree c} {h : Hole} {v : Bound}
    (hb : Binds options p n h v) :
    fits options env p n = true ↔ ∃ w, env.get? h = some w ∧ w.same v = true := by
  have e : fits options env p n = (env.get? h).any (·.same v) := by
    simp only [fits, Tree.compare, fitsHook, demand_of_binds hb]
    rfl
  rw [e, Option.any_eq_true]

theorem fits_of_compare {env : Environment} {c : Category} {p n : Tree c}
    (hd : demand options p n = .compare) :
    fits options env p n = true ↔ p.sameForm n = true ∧
      Tree.Related (fun _ p n => fits options env p n = true) p.parts n.parts := by
  have e : fits options env p n = (p.agree (fitsHook options env) n).run := by
    simp only [fits, Tree.compare, fitsHook, hd]
  rw [e]
  exact Tree.agree_iff _ p n

theorem not_fits_of_refuse {env : Environment} {c : Category} {p n : Tree c}
    (hd : demand options p n = .refuse) : fits options env p n = false := by
  simp only [fits, Tree.compare, fitsHook, hd]
  rfl

/-- A pattern that fits goes on fitting when more is bound. -/
theorem fits_mono {env env' : Environment} (hle : env.Le env') {c : Category} {p n : Tree c}
    (h : fits options env p n = true) : fits options env' p n = true := by
  induction p using Tree.induction_on_parts with
  | step c p ih =>
    cases hd : demand options p n with
    | bind k v =>
      have hb := binds_of_demand hd
      obtain ⟨w, hw, hsame⟩ := (fits_of_binds hb).mp h
      exact (fits_of_binds hb).mpr ⟨w, hle k w hw, hsame⟩
    | refuse => exact absurd h (by rw [not_fits_of_refuse hd]; exact Bool.false_ne_true)
    | compare =>
      obtain ⟨hform, hparts⟩ := (fits_of_compare hd).mp h
      exact (fits_of_compare hd).mpr ⟨hform, hparts.imp fun q hq n hn => ih q hq hn⟩

/-- Fitting does not tell the same trees apart. -/
theorem fits_of_same {env : Environment} {c : Category} {p n n' : Tree c}
    (h : fits options env p n = true) (hn : n.same n' = true) : fits options env p n' = true := by
  induction p using Tree.induction_on_parts with
  | step c p ih =>
    cases hd : demand options p n with
    | bind k v =>
      have hb := binds_of_demand hd
      obtain ⟨w, hw, hsame⟩ := (fits_of_binds hb).mp h
      obtain ⟨v', hb', hv⟩ := hb.of_same hn
      exact (fits_of_binds hb').mpr ⟨w, hw, Bound.same_trans hsame hv⟩
    | refuse => exact absurd h (by rw [not_fits_of_refuse hd]; exact Bool.false_ne_true)
    | compare =>
      obtain ⟨hform, hparts⟩ := (fits_of_compare hd).mp h
      obtain ⟨hform', hparts'⟩ := Tree.same_iff.mp hn
      have hform'' := Tree.sameForm_trans hform hform'
      refine (fits_of_compare (demand_of_sameForm (hole?_of_compare hd) hform'')).mpr ⟨hform'', ?_⟩
      exact hparts.trans hparts' fun q hq _ _ hfit hsame => ih q hq hfit hsame

/-- A pattern without holes fits what is the same. -/
theorem fits_iff_same {env : Environment} {c : Category} {p n : Tree c} (hp : p.holes = []) :
    fits options env p n = true ↔ p.same n = true := by
  induction p using Tree.induction_on_parts with
  | step c p ih =>
    have hhole := Tree.hole?_of_holes hp
    rw [Tree.same_iff]
    cases hd : demand options p n with
    | bind k v =>
      rw [(binds_of_demand hd).holes] at hp
      cases hp
    | refuse =>
      rw [not_fits_of_refuse hd]
      refine ⟨fun h => (nomatch h), fun h => ?_⟩
      rw [demand_of_sameForm hhole h.1] at hd
      cases hd
    | compare =>
      rw [fits_of_compare hd]
      refine and_congr_right fun _ => ⟨fun h => ?_, fun h => ?_⟩
      · exact h.imp fun q hq u hu => (ih q hq (Tree.holes_part hp hq)).mp hu
      · exact h.imp fun q hq u hu => (ih q hq (Tree.holes_part hp hq)).mpr hu

/-! ## Runs -/

/-- Matching a pattern against a tree succeeds and takes one environment to another. -/
def Matches (options : MatchOptions) {c : Category} (p n : Tree c) (env env' : Environment) : Prop :=
  (p.compare (matchHook options) n).run env = (true, env')

/-- Parts matched one after the other, each in the environment that the one before has left. -/
inductive Chain (options : MatchOptions) : List Phrase → List Phrase → Environment → Environment → Prop
  | nil {env : Environment} : Chain options [] [] env env
  | cons {c : Category} {p n : Tree c} {ps ns : List Phrase} {env mid env' : Environment} :
    Matches options p n env mid → Chain options ps ns mid env' →
      Chain options (⟨c, p⟩ :: ps) (⟨c, n⟩ :: ns) env env'

theorem run_agreeAll_cons {f : (c : Category) → Tree c → Tree c → StateM Environment Bool}
    {c : Category} {p n : Tree c} {l : List Tree.Pair} {env env' : Environment} :
    (Tree.agreeAll f (⟨c, p, n⟩ :: l)).run env = (true, env') ↔
      ∃ mid, (f c p n).run env = (true, mid) ∧ (Tree.agreeAll f l).run mid = (true, env') := by
  cases l with
  | nil =>
    constructor
    · intro h
      exact ⟨env', h, rfl⟩
    · rintro ⟨mid, h, h'⟩
      exact h.trans h'
  | cons x l =>
    have step : (Tree.agreeAll f (⟨c, p, n⟩ :: x :: l)).run env =
        (if ((f c p n).run env).1 = true then Tree.agreeAll f (x :: l) else pure false).run
          ((f c p n).run env).2 := rfl
    rw [step]
    rcases (f c p n).run env with ⟨_ | _, mid⟩
    · constructor
      · intro h
        cases h
      · rintro ⟨_, h, -⟩
        cases h
    · constructor
      · intro h
        exact ⟨mid, rfl, h⟩
      · rintro ⟨_, h, h'⟩
        cases h
        exact h'

theorem chain_iff {ps ns : List Phrase} (h : ps.map Sigma.fst = ns.map Sigma.fst)
    {env env' : Environment} :
    (Tree.agreeAll (fun _ p n => p.compare (matchHook options) n) (Tree.pairUp ps ns)).run env =
      (true, env') ↔ Chain options ps ns env env' := by
  induction ps generalizing ns env with
  | nil =>
    rw [List.map_eq_nil_iff.mp h.symm]
    exact ⟨fun h => by cases h; exact .nil, fun h => by cases h; rfl⟩
  | cons p ps ih =>
    obtain ⟨c, p⟩ := p
    obtain ⟨⟨d, n⟩, ns, rfl, hd, hns⟩ := List.map_eq_cons_iff.mp h.symm
    cases hd
    rw [Tree.pairUp_cons, run_agreeAll_cons]
    constructor
    · rintro ⟨mid, hmid, hrest⟩
      exact .cons hmid ((ih hns.symm).mp hrest)
    · intro hchain
      cases hchain with
      | cons hmid hrest => exact ⟨_, hmid, (ih hns.symm).mpr hrest⟩

theorem matches_of_compare {c : Category} {p n : Tree c} (hd : demand options p n = .compare)
    {env env' : Environment} :
    Matches options p n env env' ↔
      p.sameForm n = true ∧ Chain options p.parts n.parts env env' := by
  have e : p.compare (matchHook options) n = p.agree (matchHook options) n := by
    rw [Tree.compare, matchHook_eq, hd]
  rw [Matches, e, Tree.agree_eq]
  split
  · rename_i hform
    rw [← chain_iff (Tree.parts_aligned hform)]
    exact ⟨fun h => ⟨hform, h⟩, fun h => h.2⟩
  · rename_i hform
    exact ⟨fun h => (nomatch h), fun h => absurd h.1 hform⟩

theorem not_matches_of_refuse {c : Category} {p n : Tree c} (hd : demand options p n = .refuse)
    {env env' : Environment} : ¬Matches options p n env env' := by
  intro h
  rw [Matches, Tree.compare, matchHook_eq, hd] at h
  cases h

/-- A bound hole must have the same value already, or be free. -/
theorem matches_of_binds {c : Category} {p n : Tree c} {k : Hole} {v : Bound}
    (hb : Binds options p n k v) {env env' : Environment} :
    Matches options p n env env' ↔
      (∃ w, env.get? k = some w ∧ w.same v = true ∧ env' = env) ∨
        (env.get? k = none ∧ env' = env.insert k v) := by
  have e : (p.compare (matchHook options) n).run env = (Environment.bind k v).run env := by
    rw [Tree.compare, matchHook_eq, demand_of_binds hb]
  rw [Matches, e]
  cases hk : env.get? k with
  | some w =>
    rw [Environment.run_bind_of_some hk]
    constructor
    · intro h
      exact .inl ⟨w, rfl, (Prod.mk.inj h).1, (Prod.mk.inj h).2.symm⟩
    · rintro (⟨w', hw, hsame, rfl⟩ | ⟨h, -⟩)
      · cases hw
        exact congrArg (·, env') hsame
      · cases h
  | none =>
    rw [Environment.run_bind_of_none hk]
    constructor
    · intro h
      exact .inr ⟨rfl, (Prod.mk.inj h).2.symm⟩
    · rintro (⟨w, hw, -⟩ | ⟨-, rfl⟩)
      · cases hw
      · rfl

/-! ## Matching is fitting -/

/-- A step binds at most its hole, and keeps the rest. -/
theorem Binds.effect {c : Category} {p n : Tree c} {k : Hole} {v : Bound}
    (hb : Binds options p n k v) {env env' : Environment} (h : Matches options p n env env') :
    env.Le env' ∧ ∀ h, (env'.get? h).isSome = true ↔ (env.get? h).isSome = true ∨ h ∈ p.holes := by
  rw [hb.holes]
  rcases (matches_of_binds hb).mp h with ⟨w, hw, -, rfl⟩ | ⟨hfree, rfl⟩
  · refine ⟨.refl _, fun h => ⟨.inl, ?_⟩⟩
    rintro (h' | h')
    · exact h'
    · rw [List.mem_singleton.mp h', hw]
      rfl
  · refine ⟨Environment.le_insert hfree v, fun h => ?_⟩
    rw [Environment.get?_insert hfree, List.mem_singleton]
    by_cases hk : h = k
    · rw [if_pos hk]
      exact ⟨fun _ => .inr hk, fun _ => rfl⟩
    · rw [if_neg hk]
      exact ⟨.inl, fun h' => h'.resolve_right hk⟩

/-- A match keeps what was bound, and binds exactly the holes of the pattern besides. -/
theorem Matches.effect {c : Category} {p n : Tree c} {env env' : Environment}
    (h : Matches options p n env env') :
    env.Le env' ∧ ∀ h, (env'.get? h).isSome = true ↔ (env.get? h).isSome = true ∨ h ∈ p.holes := by
  induction p using Tree.induction_on_parts generalizing env env' with
  | step c p ih =>
    cases hd : demand options p n with
    | bind k v => exact (binds_of_demand hd).effect h
    | refuse => exact absurd h (not_matches_of_refuse hd)
    | compare =>
      have hchain := ((matches_of_compare hd).mp h).2
      rw [Tree.holes_eq, hole?_of_compare hd, Option.toList_none, List.nil_append]
      generalize p.parts = ps at ih hchain
      generalize n.parts = ns at hchain
      clear h hd
      induction hchain with
      | nil => exact ⟨.refl _, fun h => by simp only [List.flatMap_nil, List.not_mem_nil, or_false]⟩
      | cons hmid _ ihRest =>
        obtain ⟨hle, hkeys⟩ := ih _ List.mem_cons_self hmid
        obtain ⟨hle', hkeys'⟩ := ihRest fun q hq => ih q (List.mem_cons_of_mem _ hq)
        refine ⟨hle.trans hle', fun h => ?_⟩
        rw [hkeys', hkeys, List.flatMap_cons, List.mem_append, or_assoc]

theorem Chain.le {ps ns : List Phrase} {env env' : Environment} (h : Chain options ps ns env env') :
    env.Le env' := by
  induction h with
  | nil => exact .refl _
  | cons hmid _ ih => exact hmid.effect.1.trans ih

/-- A match that succeeds ends in an environment under which the pattern fits. -/
theorem Matches.fits {c : Category} {p n : Tree c} {env env' : Environment} (hn : n.NaNFree)
    (h : Matches options p n env env') : fits options env' p n = true := by
  induction p using Tree.induction_on_parts generalizing env env' with
  | step c p ih =>
    cases hd : demand options p n with
    | bind k v =>
      have hb := binds_of_demand hd
      rw [fits_of_binds hb]
      rcases (matches_of_binds hb).mp h with ⟨w, hw, hsame, rfl⟩ | ⟨hfree, rfl⟩
      · exact ⟨w, hw, hsame⟩
      · refine ⟨v, ?_, hb.same_self hn⟩
        rw [Environment.get?_insert hfree, if_pos rfl]
    | refuse => exact absurd h (not_matches_of_refuse hd)
    | compare =>
      obtain ⟨hform, hchain⟩ := (matches_of_compare hd).mp h
      refine (fits_of_compare hd).mpr ⟨hform, ?_⟩
      replace hn : ∀ q ∈ n.parts, q.2.NaNFree := fun q hq => hn.part hq
      generalize p.parts = ps at ih hchain
      generalize n.parts = ns at hn hchain
      clear h hd hform
      induction hchain with
      | nil => exact .nil
      | cons hmid hrest ihRest =>
        refine .cons ?_ (ihRest (fun q hq => ih q (List.mem_cons_of_mem _ hq))
          fun q hq => hn q (List.mem_cons_of_mem _ hq))
        -- what is bound later does not matter to the first part
        exact fits_mono (Chain.le hrest) (ih _ List.mem_cons_self (hn _ List.mem_cons_self) hmid)

/-- A pattern that fits under an environment matches, and what is bound on the way is the same as
what the environment holds. -/
theorem matches_of_fits {s : Environment} {c : Category} {p n : Tree c}
    (h : fits options s p n = true) {env : Environment} (henv : env.Reflects s) :
    ∃ env', Matches options p n env env' ∧ env'.Reflects s := by
  induction p using Tree.induction_on_parts generalizing env with
  | step c p ih =>
    cases hd : demand options p n with
    | bind k v =>
      have hb := binds_of_demand hd
      obtain ⟨w, hw, hsame⟩ := (fits_of_binds hb).mp h
      cases hk : env.get? k with
      | some u =>
        obtain ⟨w', hw', hu⟩ := henv k u hk
        obtain rfl : w = w' := Option.some.inj (hw.symm.trans hw')
        have huv := Bound.same_trans (Bound.same_symm hu) hsame
        exact ⟨env, (matches_of_binds hb).mpr (.inl ⟨u, hk, huv, rfl⟩), henv⟩
      | none =>
        refine ⟨env.insert k v, (matches_of_binds hb).mpr (.inr ⟨hk, rfl⟩), fun j u hj => ?_⟩
        rw [Environment.get?_insert hk] at hj
        split at hj
        · rename_i hjk
          cases hj
          exact ⟨w, hjk ▸ hw, hsame⟩
        · exact henv j u hj
    | refuse => exact absurd h (by rw [not_fits_of_refuse hd]; exact Bool.false_ne_true)
    | compare =>
      obtain ⟨hform, hparts⟩ := (fits_of_compare hd).mp h
      suffices hchain : ∃ env', Chain options p.parts n.parts env env' ∧ env'.Reflects s by
        obtain ⟨env', hchain, hreflects⟩ := hchain
        exact ⟨env', (matches_of_compare hd).mpr ⟨hform, hchain⟩, hreflects⟩
      generalize p.parts = ps at ih hparts
      generalize n.parts = ns at hparts
      clear h hd hform
      induction hparts generalizing env with
      | nil => exact ⟨env, .nil, henv⟩
      | cons hfit _ ihRest =>
        obtain ⟨mid, hmid, hreflects⟩ := ih _ List.mem_cons_self hfit henv
        obtain ⟨env', hrest, hreflects'⟩ :=
          ihRest hreflects fun q hq => ih q (List.mem_cons_of_mem _ hq)
        exact ⟨env', .cons hmid hrest, hreflects'⟩

end Pattern

end Unminify
