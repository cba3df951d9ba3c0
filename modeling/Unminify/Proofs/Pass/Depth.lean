import Unminify.Pass.Run
import Unminify.Proofs.Pattern.Filling
import Unminify.Proofs.Syntax.Reached

/-!
# How deep phrases stand

A *grading* gives a weight to every form that a pass acts on. A phrase stands as deep as the forms
around it weigh, its own included, and the *outline* of a tree lists how deep everything in it stands
that a walk reaches, and the holes among it.

The outline of a pattern says something about whatever the pattern matches, and the outline of a
template about whatever it is filled to:

* `bounded_of_matches` — a value that a match has bound stands in the tree as deep as its hole in the
  pattern, so it has only the rest of the tree's depth;
* `sits_of_visit` — a template is filled to a tree that is no deeper than the outline of the template
  with the depths of the values added.
-/

namespace Unminify

/-- What an outline says of a phrase. -/
structure Mark where
  depth : Nat
  hole : Option Hole
deriving DecidableEq, Repr

/-- A mark of a tree that stands below others. -/
def Mark.lower (depth : Nat) (m : Mark) : Mark := { m with depth := depth + m.depth }

theorem Mark.lower_lower (a b : Nat) (m : Mark) : (m.lower a).lower b = m.lower (b + a) := by
  rw [lower, lower, lower, Nat.add_assoc]

theorem Mark.lower_comp (a b : Nat) : lower b ∘ lower a = lower (b + a) :=
  funext (lower_lower a b)

/-- Weights for the forms of phrases. -/
structure Grading where
  /-- The weight of a form, by the number of its constructor. -/
  weight : Nat → Nat
  /-- What a pass walks in place has no weight. -/
  inPlace : ∀ {c : Category} (t : Tree c), Pass.isActedOn c = false → weight t.ctorIdx = 0
  /-- Holes have no weight. -/
  hole : ∀ {c : Category} (t : Tree c), t.hole?.isSome = true → weight t.ctorIdx = 0
  /-- A statement list weighs no more than the comma expression that it may come from. -/
  comma : ∀ (items : Tree (.list .stmt)) (parts : Tree (.list .expr)),
    weight (Tree.stmts items).ctorIdx ≤ weight (Tree.comma parts).ctorIdx

namespace Tree

/-! ## Parts that are visited -/

/-- Only a dot access has a part that is not visited. -/
theorem unvisited_cases {c : Category} (t : Tree c) :
    t.unvisited = [] ∨ ∃ optional target prop,
      (⟨c, t⟩ : Phrase) = ⟨.expr, .access false optional target prop⟩ := by
  cases t
  case access computed optional target prop =>
    cases computed with
    | true => exact .inl rfl
    | false => exact .inr ⟨optional, target, prop, rfl⟩
  all_goals exact .inl rfl

theorem length_unvisited_of_dot {optional : Bool} {target prop u : Expr}
    (h : (access false optional target prop).sameForm u = true) : u.unvisited.length = 1 := by
  obtain ⟨hidx, hscalars⟩ := sameForm_iff.mp h
  cases u with
  | access computed _ _ _ =>
    have hcomputed := (sameScalars_cons.mp hscalars).1
    cases computed with
    | false => rfl
    | true => cases hcomputed
  | _ => cases hidx

theorem length_unvisited {c : Category} {t u : Tree c} (h : t.sameForm u = true) :
    t.unvisited.length = u.unvisited.length := by
  rcases t.unvisited_cases with ht | ⟨optional, target, prop, ht⟩
  · rcases u.unvisited_cases with hu | ⟨optional, target, prop, hu⟩
    · rw [ht, hu]
    · cases hu
      exact length_unvisited_of_dot (sameForm_symm h)
  · cases ht
    exact (length_unvisited_of_dot h).symm

/-- Phrases of one form have visited parts of the same kinds. -/
theorem visited_aligned {c : Category} {t u : Tree c} (h : t.sameForm u = true) :
    t.visited.map Sigma.fst = u.visited.map Sigma.fst := by
  have hparts := parts_aligned h
  rw [parts_eq, parts_eq u, List.map_append, List.map_append] at hparts
  refine (List.append_inj' hparts ?_).1
  rw [List.length_map, List.length_map, length_unvisited h]

/-- The visited parts of phrases that are the same are the same. -/
theorem same_visited {c : Category} {t u : Tree c} (h : t.same u = true) :
    Related (fun _ t u => t.same u = true) t.visited u.visited := by
  obtain ⟨hform, hparts⟩ := same_iff.mp h
  rw [parts_eq t] at hparts
  obtain ⟨qs, qs', hu, hvisited, hrest⟩ := hparts.of_append
  have haligned : qs.map Sigma.fst = u.visited.map Sigma.fst :=
    hvisited.aligned.symm.trans (visited_aligned hform)
  have hlength : qs.length = u.visited.length := by
    simpa only [List.length_map] using congrArg List.length haligned
  rw [parts_eq u] at hu
  rw [(List.append_inj hu hlength.symm).1]
  exact hvisited

theorem visited_of_hole {c : Category} {t : Tree c} {k : Hole} (h : t.hole? = Option.some k) :
    t.visited = [] := by
  cases t with
  | nameHole _ => rfl
  | stmtHole _ _ => rfl
  | exprHole _ _ => rfl
  | _ => cases h

end Tree

namespace Grading

variable (g : Grading)

/-! ## Outlines -/

/-- The weight of a phrase. -/
def of {c : Category} (t : Tree c) : Nat := g.weight t.ctorIdx

/-- The walk that marks every phrase it comes to; the state has the depth of the phrases around. -/
def marking : Tree.Hook (StateM (Nat × List Mark)) := fun _ t walk => do
  let (depth, marks) ← get
  set (depth + g.of t, marks ++ [{ depth := depth + g.of t, hole := t.hole? }])
  let t ← walk ()
  modify fun s => (depth, s.2)
  return t

/-- The marks of all phrases that a walk comes to. -/
def outline {c : Category} (t : Tree c) : List Mark := ((t.visit g.marking).run (0, [])).2.2

variable {g} {c : Category}

theorem of_sameForm {t u : Tree c} (h : t.sameForm u = true) : g.of t = g.of u := by
  rw [of, of, (Tree.sameForm_iff.mp h).1]

theorem of_rebuild (t : Tree c) (ps : List Phrase) : g.of (t.rebuild ps) = g.of t := by
  rw [of, of, Tree.ctorIdx_rebuild]

private theorem foldl_marks (f : Nat → Phrase → List Mark) (ps : List Phrase) (depth : Nat)
    (marks : List Mark) :
    ps.foldl (fun s p => (s.1, s.2 ++ f s.1 p)) (depth, marks) = (depth, marks ++ ps.flatMap (f depth)) := by
  induction ps generalizing marks with
  | nil => rw [List.foldl_nil, List.flatMap_nil, List.append_nil]
  | cons p ps ih => rw [List.foldl_cons, ih, List.flatMap_cons, List.append_assoc]

theorem run_marking_of_visited {t : Tree c} (depth : Nat) (marks : List Mark)
    (h : ∀ p ∈ t.visited, ∀ s : Nat × List Mark, (p.2.visit g.marking).run s =
      (p.2, (s.1, s.2 ++ (g.outline p.2).map (.lower s.1)))) :
    (t.visit g.marking).run (depth, marks) = (t, (depth, marks ++ ⟨depth + g.of t, t.hole?⟩ ::
      t.visited.flatMap fun p => (g.outline p.2).map (.lower (depth + g.of t)))) := by
  have hdescend := Tree.run_walkAll_unchanged (f := fun c t => g.marking c t fun _ => t.descend g.marking)
    t.rebuild (depth + g.of t, marks ++ [⟨depth + g.of t, t.hole?⟩]) h
  rw [← Tree.descend_eq, Tree.rebuild_visited,
    foldl_marks fun depth p => (g.outline p.2).map (.lower depth)] at hdescend
  show (((t.descend g.marking).run _).1, (depth, ((t.descend g.marking).run _).2.2)) = _
  rw [hdescend, List.append_assoc, List.singleton_append]

theorem run_marking (t : Tree c) (s : Nat × List Mark) :
    (t.visit g.marking).run s = (t, (s.1, s.2 ++ (g.outline t).map (.lower s.1))) := by
  induction t using Tree.induction_on_parts generalizing s with
  | step c t ih =>
    have hrun := fun depth marks => run_marking_of_visited (t := t) depth marks
      fun p hp => ih p (Tree.mem_parts_of_visited hp)
    have houtline : g.outline t = ⟨g.of t, t.hole?⟩ ::
        t.visited.flatMap fun p => (g.outline p.2).map (.lower (g.of t)) := by
      rw [outline, hrun, List.nil_append, Nat.zero_add]
    rw [show s = (s.1, s.2) from rfl, hrun, houtline]
    simp only [List.map_cons, List.map_flatMap, List.map_map, Mark.lower_comp]
    rfl

/-- The outline of a tree is the mark of its root and the outlines of the visited parts, lower by the
weight of the root. -/
theorem outline_eq (t : Tree c) :
    g.outline t = ⟨g.of t, t.hole?⟩ ::
      t.visited.flatMap fun p => (g.outline p.2).map (.lower (g.of t)) := by
  rw [outline, run_marking_of_visited 0 [] fun p _ => run_marking p.2, List.nil_append, Nat.zero_add]

/-- A condition on the marks of a tree that stands below others. -/
theorem forall_outline {φ : Mark → Prop} {t : Tree c} {depth : Nat} :
    (∀ m ∈ g.outline t, φ (m.lower depth)) ↔ φ ⟨depth + g.of t, t.hole?⟩ ∧
      ∀ p ∈ t.visited, ∀ m ∈ g.outline p.2, φ (m.lower (depth + g.of t)) := by
  rw [outline_eq, List.forall_mem_cons, List.forall_mem_flatMap]
  refine and_congr_right fun _ => forall_congr' fun p => forall_congr' fun _ => ?_
  simp only [List.forall_mem_map, Mark.lower_lower]

/-- An outline depends on the root and on the outlines of the visited parts. -/
theorem outline_congr {t u : Tree c} (hof : g.of t = g.of u) (hhole : t.hole? = u.hole?)
    (h : Tree.Related (fun _ t u => g.outline t = g.outline u) t.visited u.visited) :
    g.outline t = g.outline u := by
  rw [outline_eq, outline_eq u, hof, hhole]
  congr 1
  generalize g.of u = w
  refine Tree.Related.flatMap_eq (f := fun t => (g.outline t).map (Mark.lower w)) ?_
  exact h.imp fun p _ v hv => by rw [hv]

/-- The same trees have the same outline. -/
theorem outline_eq_of_same {t u : Tree c} (h : t.same u = true) : g.outline t = g.outline u := by
  induction t using Tree.induction_on_parts with
  | step c t ih =>
    refine outline_congr (of_sameForm (Tree.same_iff.mp h).1) (Tree.hole?_eq_of_same h) ?_
    exact (Tree.same_visited h).imp fun p hp v hv => ih p (Tree.mem_parts_of_visited hp) hv

/-! ## Trees without holes -/

/-- A tree without holes that, standing at some depth, stays above a limit. -/
def Sits (g : Grading) (limit depth : Nat) {c : Category} (t : Tree c) : Prop :=
  ∀ m ∈ g.outline t, (m.lower depth).hole = none ∧ (m.lower depth).depth < limit

variable {limit depth : Nat}

theorem sits_iff {t : Tree c} :
    g.Sits limit depth t ↔ (t.hole? = none ∧ depth + g.of t < limit) ∧
      ∀ p ∈ t.visited, g.Sits limit (depth + g.of t) p.2 :=
  forall_outline (φ := fun m => m.hole = none ∧ m.depth < limit)

theorem Sits.mono {limit' depth' : Nat} {t : Tree c} (h : g.Sits limit depth t)
    (hlimit : limit + depth' ≤ limit' + depth) : g.Sits limit' depth' t := by
  intro m hm
  obtain ⟨hhole, hdepth⟩ := h m hm
  refine ⟨hhole, ?_⟩
  simp only [Mark.lower] at hdepth ⊢
  omega

theorem Sits.visited {t : Tree c} (h : g.Sits limit depth t) {p : Phrase} (hp : p ∈ t.visited) :
    g.Sits limit depth p.2 :=
  ((sits_iff.mp h).2 p hp).mono (by omega)

theorem Sits.hole? {t : Tree c} (h : g.Sits limit depth t) : t.hole? = none := (sits_iff.mp h).1.1

theorem Sits.reached {t : Tree c} (h : g.Sits limit depth t) {q : Phrase} (hq : q ∈ t.reached) :
    g.Sits limit depth q.2 := by
  induction t using Tree.induction_on_parts with
  | step c t ih =>
    rcases Tree.mem_reached.mp hq with rfl | ⟨p, hp, hq⟩
    · exact h
    · exact ih p (Tree.mem_parts_of_visited hp) (h.visited hp) hq

theorem sits_nil (h : depth < limit) : g.Sits limit depth (Tree.nil : Tree (.list c)) := by
  refine sits_iff.mpr ⟨⟨rfl, ?_⟩, nofun⟩
  rw [of, g.inPlace _ rfl]
  exact h

theorem Sits.of_same {t u : Tree c} (h : g.Sits limit depth t) (hsame : t.same u = true) :
    g.Sits limit depth u := by
  unfold Sits
  rw [← outline_eq_of_same hsame]
  exact h

theorem hole_of_mem_outline {t : Tree c} (h : t.holes = []) {m : Mark} (hm : m ∈ g.outline t) :
    m.hole = none := by
  induction t using Tree.induction_on_parts generalizing m with
  | step c t ih =>
    rw [outline_eq, List.mem_cons, List.mem_flatMap] at hm
    rcases hm with rfl | ⟨p, hp, hm⟩
    · exact Tree.hole?_of_holes h
    · obtain ⟨m', hm', rfl⟩ := List.mem_map.mp hm
      have hp := Tree.mem_parts_of_visited hp
      show m'.hole = none
      exact ih p hp (Tree.holes_part h hp) hm'

/-- A tree without holes stays above some limit. -/
theorem exists_sits {t : Tree c} (h : t.holes = []) : ∃ limit, g.Sits limit 0 t := by
  have hlimit : ∀ marks : List Mark, ∃ limit, ∀ m ∈ marks, m.depth < limit := by
    intro marks
    induction marks with
    | nil => exact ⟨0, nofun⟩
    | cons m marks ih =>
      obtain ⟨limit, hlimit⟩ := ih
      refine ⟨max (m.depth + 1) limit, List.forall_mem_cons.mpr ⟨?_, fun m' hm' => ?_⟩⟩
      · exact Nat.le_max_left _ _
      · exact Nat.lt_of_lt_of_le (hlimit m' hm') (Nat.le_max_right _ _)
  obtain ⟨limit, hlimit⟩ := hlimit (g.outline t)
  refine ⟨limit, fun m hm => ?_⟩
  rw [Mark.lower, Nat.zero_add]
  exact ⟨hole_of_mem_outline h hm, hlimit m hm⟩

/-! ## Matching -/

/-- A mark that stays above a limit, with the value of the hole if it is one. -/
def Bounded (g : Grading) (env : Environment) (limit : Nat) (m : Mark) : Prop :=
  match m.hole with
  | none => m.depth < limit
  | some k => ∃ v, env.get? k = some v ∧ g.Sits limit m.depth v.phrase.2

theorem Bounded.mono {env env' : Environment} {m : Mark} (h : g.Bounded env limit m)
    (hle : env.Le env') : g.Bounded env' limit m := by
  obtain ⟨d, _ | k⟩ := m
  · exact h
  · obtain ⟨v, hv, hsits⟩ := h
    exact ⟨v, hle k v hv, hsits⟩

theorem Bounded.depth_lt {env : Environment} {m : Mark} (h : g.Bounded env limit m) :
    m.depth < limit := by
  obtain ⟨d, _ | k⟩ := m
  · exact h
  · obtain ⟨v, -, hsits⟩ := h
    exact Nat.lt_of_le_of_lt (Nat.le_add_right _ _) (sits_iff.mp hsits).1.2

open Pattern

variable {options : MatchOptions} {env env' : Environment}

theorem sits_of_bound_same {v w : Bound} (h : g.Sits limit depth v.phrase.2) (hsame : v.same w = true) :
    g.Sits limit depth w.phrase.2 := by
  cases v with
  | name t =>
    cases w with
    | name u => exact Sits.of_same (u := u) h hsame
    | _ => exact absurd hsame Bool.false_ne_true
  | stmt t =>
    cases w with
    | stmt u => exact Sits.of_same (u := u) h hsame
    | _ => exact absurd hsame Bool.false_ne_true
  | expr t =>
    cases w with
    | expr u => exact Sits.of_same (u := u) h hsame
    | _ => exact absurd hsame Bool.false_ne_true
  | decl t =>
    cases w with
    | decl u => exact Sits.of_same (u := u) h hsame
    | _ => exact absurd hsame Bool.false_ne_true

/-- What a hole is bound to is the tree it faces, or a tree that is the same. -/
theorem sits_of_binds {p n : Tree c} {k : Hole} {v : Bound} (hb : Binds options p n k v)
    (h : Matches options p n env env') (hn : g.Sits limit depth n) :
    ∃ w, env'.get? k = some w ∧ g.Sits limit depth w.phrase.2 := by
  have hv : g.Sits limit depth v.phrase.2 := by
    cases hb with
    | decl => exact hn.visited List.mem_cons_self
    | _ => exact hn
  rcases (matches_of_binds hb).mp h with ⟨w, hw, hsame, rfl⟩ | ⟨hfree, rfl⟩
  · exact ⟨w, hw, sits_of_bound_same hv (Bound.same_symm hsame)⟩
  · refine ⟨v, ?_, hv⟩
    rw [Environment.get?_insert hfree, if_pos rfl]

/-- The outline of a hole whose value is known. -/
theorem bounded_of_hole {p : Tree c} {k : Hole} (hk : p.hole? = some k) {w : Bound}
    (hw : env.get? k = some w) (hsits : g.Sits limit depth w.phrase.2) :
    ∀ m ∈ g.outline p, g.Bounded env limit (m.lower depth) := by
  have hof : g.of p = 0 := g.hole p (by rw [hk]; rfl)
  refine forall_outline.mpr ⟨?_, ?_⟩
  · rw [hof, hk]
    exact ⟨w, hw, hsits⟩
  · rw [Tree.visited_of_hole hk]
    exact nofun

theorem bounded_of_binds {p n : Tree c} {k : Hole} {v : Bound} (hb : Binds options p n k v)
    (h : Matches options p n env env') (hn : g.Sits limit depth n) :
    ∀ m ∈ g.outline p, g.Bounded env' limit (m.lower depth) := by
  obtain ⟨w, hw, hsits⟩ := sits_of_binds hb h hn
  cases hb with
  | stmt _ => exact bounded_of_hole rfl hw hsits
  | expr => exact bounded_of_hole rfl hw hsits
  | name => exact bounded_of_hole rfl hw hsits
  | decl =>
    rename_i index decl
    -- a loop head made of a hole weighs nothing, so the hole stands where the head does
    have hof : g.of (Tree.exprHead (.exprHole index true)) = 0 := g.inPlace _ rfl
    refine forall_outline.mpr ⟨?_, fun q hq => ?_⟩
    · exact Nat.lt_of_le_of_lt (by rw [hof]; exact Nat.le_add_right _ _) (sits_iff.mp hn).1.2
    · obtain rfl := List.mem_singleton.mp hq
      rw [hof]
      exact bounded_of_hole rfl hw hsits

/-- A chain of matches of some parts and others, up to where the others begin. -/
theorem chain_of_append {ps ns ps' ns' : List Phrase} (haligned : ps.map Sigma.fst = ns.map Sigma.fst)
    (h : Chain options (ps ++ ps') (ns ++ ns') env env') :
    ∃ mid, Chain options ps ns env mid ∧ mid.Le env' := by
  induction ps generalizing ns env with
  | nil =>
    rw [List.map_nil] at haligned
    rw [List.map_eq_nil_iff.mp haligned.symm]
    exact ⟨env, .nil, h.le⟩
  | cons p ps ih =>
    obtain ⟨n, ns, rfl, hn, hns⟩ := List.map_eq_cons_iff.mp haligned.symm
    cases h with
    | cons hmid hrest =>
      obtain ⟨mid, hchain, hle⟩ := ih hns.symm hrest
      exact ⟨mid, .cons hmid hchain, hle⟩

theorem bounded_of_chain {ps ns : List Phrase} (h : Chain options ps ns env env')
    (hns : ∀ n ∈ ns, g.Sits limit depth n.2)
    (hps : ∀ p ∈ ps, ∀ {n : Tree p.1} {env env' : Environment}, Matches options p.2 n env env' →
      g.Sits limit depth n → ∀ m ∈ g.outline p.2, g.Bounded env' limit (m.lower depth)) :
    ∀ p ∈ ps, ∀ m ∈ g.outline p.2, g.Bounded env' limit (m.lower depth) := by
  induction h with
  | nil => exact nofun
  | cons hmid hrest ih =>
    rw [List.forall_mem_cons] at hns hps ⊢
    exact ⟨fun m hm => (hps.1 hmid hns.1 m hm).mono hrest.le, ih hns.2 hps.2⟩

/-- What a pattern matches is at least as deep as the pattern, and what a hole is bound to stands as
deep as the hole. -/
theorem bounded_of_matches {p n : Tree c} (h : Matches options p n env env')
    (hn : g.Sits limit depth n) : ∀ m ∈ g.outline p, g.Bounded env' limit (m.lower depth) := by
  induction p using Tree.induction_on_parts generalizing depth env env' with
  | step c p ih =>
    cases hd : demand options p n with
    | bind k v => exact bounded_of_binds (binds_of_demand hd) h hn
    | refuse => exact absurd h (not_matches_of_refuse hd)
    | compare =>
      obtain ⟨hform, hchain⟩ := (matches_of_compare hd).mp h
      rw [Tree.parts_eq p, Tree.parts_eq n] at hchain
      obtain ⟨mid, hchain, hle⟩ := chain_of_append (Tree.visited_aligned hform) hchain
      obtain ⟨⟨-, hroot⟩, hvisited⟩ := sits_iff.mp hn
      rw [← of_sameForm hform] at hroot hvisited
      refine forall_outline.mpr ⟨?_, fun q hq m hm => ?_⟩
      · rw [Bounded, hole?_of_compare hd]
        exact hroot
      · refine (bounded_of_chain hchain hvisited (fun q hq => ?_) q hq m hm).mono hle
        intro n env env' h hn
        exact ih q (Tree.mem_parts_of_visited hq) h hn

/-! ## Filling -/

variable {fuel : Nat}

theorem loneHole_of_sits {t : Tree c} (h : g.Sits limit depth t) : t.loneHole = false := by
  cases t with
  | blockStmt inner =>
    simp only [Tree.loneHole]
    split
    · rename_i i multiLine hinner
      have hmem : (⟨.stmt, .stmtHole i multiLine⟩ : Phrase) ∈ inner.reached := by
        refine Tree.mem_reached_of_statements ?_
        rw [hinner]
        exact List.mem_cons_self
      cases ((h.visited List.mem_cons_self).reached hmem).hole?
    · rfl
  | _ => rfl

theorem headHole?_of_sits {t : Tree c} (h : g.Sits limit depth t) : t.headHole? = none := by
  cases t with
  | exprHead e =>
    have he := (h.visited List.mem_cons_self).hole?
    cases e with
    | exprHole _ _ => cases he
    | _ => rfl
  | _ => rfl

/-- Filling leaves a tree as it is if a walk reaches no holes in it. -/
theorem visit_of_sits {t : Tree c} (h : g.Sits limit depth t) :
    t.visit (fillHook env fuel) = .ok t := by
  induction t using Tree.induction_on_parts with
  | step c t ih =>
    have hparts : Tree.Related (fun _ q u => q.visit (fillHook env fuel) = .ok u) t.visited t.visited :=
      .refl fun q hq => ih q (Tree.mem_parts_of_visited hq) (h.visited hq)
    have hhead : ∀ i, t.headHole? = some i → ∀ d, env.get? ⟨.expression, i⟩ ≠ some (.decl d) := by
      intro i hi
      rw [headHole?_of_sits h] at hi
      cases hi
    rw [visit_of_parts h.hole? (loneHole_of_sits h) hhead hparts, Tree.rebuild_visited]

/-- The statements that a block takes over. -/
theorem sits_adopted {inner bound : Block} (h : adopted? env inner = some bound)
    (hinner : ∀ m ∈ g.outline inner, g.Bounded env limit (m.lower depth)) :
    g.Sits limit depth bound := by
  obtain ⟨i, multiLine, s, rfl, hget, hs⟩ := eq_of_adopted? h
  obtain ⟨hroot, hitems⟩ := forall_outline.mp hinner
  have hhole := (forall_outline.mp ((forall_outline.mp (hitems _ List.mem_cons_self)).2 _
    List.mem_cons_self)).1
  obtain ⟨w, hw, hsits⟩ := hhole
  cases hget.symm.trans hw
  replace hsits : g.Sits limit depth s :=
    hsits.mono (by show limit + depth ≤ limit + (depth + _ + _ + _); omega)
  rcases hs with rfl | rfl | ⟨rfl, rfl⟩
  · exact hsits.visited (p := ⟨_, bound⟩) List.mem_cons_self
  · exact hsits.visited (p := ⟨_, bound⟩) List.mem_cons_self
  · replace hroot : depth + g.of (Tree.stmts .nil) < limit := hroot
    refine sits_iff.mpr ⟨⟨rfl, hroot⟩, fun q hq => ?_⟩
    obtain rfl := List.mem_singleton.mp hq
    exact sits_nil hroot

/-- The parts of what a template that is no hole is filled to, given what its parts are filled to. -/
theorem sits_visited_of_visit {p u : Tree c} (hhole : p.hole? = none)
    (h : p.visit (fillHook env fuel) = .ok u)
    (hp : ∀ q ∈ p.visited, ∀ m ∈ g.outline q.2, g.Bounded env limit (m.lower depth))
    (ih : ∀ q ∈ p.visited, ∀ v, q.2.visit (fillHook env fuel) = .ok v → g.Sits limit depth v) :
    (u.hole? = none ∧ g.of u = g.of p) ∧ ∀ q ∈ u.visited, g.Sits limit depth q.2 := by
  rcases visit_cases env fuel hhole with
    hwalk | ⟨inner, bound, hblock, hadopted⟩ | ⟨i, b, d, hhead, hd⟩
  · rw [hwalk, Tree.descend_eq] at h
    obtain ⟨us, hus, rfl⟩ := walkAll_eq_ok h
    refine ⟨⟨(p.hole?_rebuild us).trans hhole, of_rebuild p us⟩, fun q hq => ?_⟩
    rw [Tree.visited_rebuild hus.aligned.symm] at hq
    obtain ⟨t, ht, hfill⟩ := hus.exists_of_mem hq
    exact ih _ ht q.2 hfill
  · cases hblock
    rw [Tree.visit, fillHook_block, hadopted] at h
    cases h
    refine ⟨⟨rfl, rfl⟩, fun q hq => ?_⟩
    obtain rfl := List.mem_singleton.mp hq
    exact sits_adopted hadopted (hp ⟨_, inner⟩ List.mem_cons_self)
  · cases hhead
    have hsits : g.Sits limit depth d := by
      have hroot := (forall_outline.mp (hp ⟨_, .exprHole i b⟩ List.mem_cons_self)).1
      obtain ⟨w, hw, hsits⟩ := hroot
      cases hd.symm.trans hw
      exact hsits.mono (Nat.add_le_add_left (Nat.le_add_right _ _) _)
    have hu : u = .declHead d := by
      rw [Tree.visit, fillHook_head, hd] at h
      cases fuel with
      | zero => exact (Except.ok.inj h).symm
      | succ fuel =>
        simp only [visit_of_sits hsits] at h
        exact (Except.ok.inj h).symm
    subst hu
    refine ⟨⟨rfl, ?_⟩, fun q hq => ?_⟩
    · rw [of, of, g.inPlace (Tree.declHead d) rfl, g.inPlace (Tree.exprHead _) rfl]
    · obtain rfl := List.mem_singleton.mp hq
      exact hsits

/-- A template is filled to a tree that stays above a limit, if its own forms do and the values of its
holes do where the holes stand. -/
theorem sits_of_visit {p u : Tree c} (h : p.visit (fillHook env fuel) = .ok u)
    (hp : ∀ m ∈ g.outline p, g.Bounded env limit (m.lower depth)) : g.Sits limit depth u := by
  induction p using Tree.induction_on_parts generalizing depth with
  | step c p ih =>
    obtain ⟨hroot, hvisited⟩ := forall_outline.mp hp
    cases hhole : p.hole? with
    | some k =>
      have hof : g.of p = 0 := g.hole p (by rw [hhole]; rfl)
      rw [hof, hhole] at hroot
      obtain ⟨w, hw, hsits⟩ := hroot
      rw [phrase_of_visit_hole hhole h hw] at hsits
      exact hsits
    | none =>
      have hparts := sits_visited_of_visit hhole h hvisited fun q hq v hv =>
        ih q (Tree.mem_parts_of_visited hq) hv (hvisited q hq)
      rw [hhole] at hroot
      refine sits_iff.mpr ⟨⟨hparts.1.1, ?_⟩, ?_⟩
      · rw [hparts.1.2]
        exact hroot
      · rw [hparts.1.2]
        exact hparts.2

end Grading

end Unminify
