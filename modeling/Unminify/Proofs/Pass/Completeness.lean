import Unminify.Proofs.Pass.FixedPoint
import Unminify.Proofs.Pass.Grading

/-!
# Rules that can always be applied

Nothing in the making of a rule checks its template, and a template may use a hole that the pattern
does not have. A rule is `Complete` if its pattern *supplies* its template: every hole of the template
is a hole of the pattern, and a hole that may stand for the declaration in a loop head stands in the
template for a whole loop head again. A pass over a program without holes then never stops at a
template, however deep it goes, and leaves a program without holes (`filled_pass`).

* `Matches.origin` — what a match has bound stood across from a hole;
* `exists_fill` — a template is filled from an environment that has values of the right kinds for it;
* `meets_walk` — so each step of a walk leaves a phrase without holes.
-/

namespace Unminify

namespace Tree

/-! ## Templates and their patterns -/

/-- The hole of a loop head that may stand for a declaration. -/
def declarationHole? : {c : Category} → Tree c → Option Hole
  | _, .exprHead (.exprHole index true) => Option.some ⟨.expression, index⟩
  | _, _ => Option.none

/-- The holes of a tree that may stand for the declaration in a loop head. -/
def declarationHoles {c : Category} (t : Tree c) : List Hole := t.phrases.filterMap (·.2.declarationHole?)

/-- The holes of a tree that are not the whole of a loop head. -/
def bareHoles {c : Category} (t : Tree c) : List Hole :=
  t.hole?.toList ++
    t.phrases.flatMap fun q => if q.1 = .forHead then [] else q.2.parts.filterMap (·.2.hole?)

/-- A pattern supplies a template with values for its holes. -/
structure Supplies {c d : Category} (p : Tree c) (t : Tree d) : Prop where
  /-- The dot accesses of the template are named by string literals. -/
  dots : t.Everywhere fun q => q.2.dotNamed = true
  /-- The template uses only holes of the pattern. -/
  holes : t.holes ⊆ p.holes
  /-- A hole that may stand for a declaration is used only for whole loop heads. -/
  heads : ∀ k ∈ p.declarationHoles, k ∉ t.bareHoles

instance {c d : Category} (p : Tree c) (t : Tree d) : Decidable (p.Supplies t) :=
  decidable_of_iff ((∀ q ∈ t.phrases, q.2.dotNamed = true) ∧ (∀ k ∈ t.holes, k ∈ p.holes) ∧
      ∀ k ∈ p.declarationHoles, k ∉ t.bareHoles)
    ⟨fun h => ⟨h.1, h.2.1, h.2.2⟩, fun h => ⟨h.dots, h.holes, h.heads⟩⟩

theorem holes_of_phrase {c : Category} {t : Tree c} (h : t.holes = []) {q : Phrase}
    (hq : q ∈ t.phrases) : q.2.holes = [] :=
  holes_eq_nil_iff.mpr fun r hr => holes_eq_nil_iff.mp h r (mem_phrases_trans hq hr)

end Tree

/-- The pattern of a rule supplies its template. -/
def Rule.Complete (r : Rule) : Prop := r.pattern.phrase.2.Supplies r.replacement.phrase.2

instance (r : Rule) : Decidable r.Complete :=
  inferInstanceAs (Decidable (r.pattern.phrase.2.Supplies r.replacement.phrase.2))

/-- The category of what a hole stands for. -/
def HoleFamily.category : HoleFamily → Category
  | generic => .name
  | statement => .stmt
  | expression => .expr

namespace Pattern

variable {options : MatchOptions} {env env' : Environment} {c : Category}

/-! ## What a match has bound -/

/-- What is bound after a match was bound before, or has been bound where a hole faced a phrase. -/
theorem Matches.origin {p n : Tree c} (h : Matches options p n env env') {k : Hole} {v : Bound}
    (hk : env'.get? k = some v) :
    env.get? k = some v ∨ ∃ (d : Category) (q u : Tree d),
      ⟨d, q⟩ ∈ p.phrases ∧ ⟨d, u⟩ ∈ n.phrases ∧ Binds options q u k v := by
  induction p using Tree.induction_on_parts generalizing env env' with
  | step c p ih =>
    cases hd : demand options p n with
    | bind k' v' =>
      have hb := binds_of_demand hd
      rcases (matches_of_binds hb).mp h with ⟨w, hw, -, rfl⟩ | ⟨hfree, rfl⟩
      · exact .inl hk
      · rw [Environment.get?_insert hfree] at hk
        split at hk
        · rename_i hkey
          cases hk
          exact .inr ⟨c, p, n, p.self_mem_phrases, n.self_mem_phrases, hkey ▸ hb⟩
        · exact .inl hk
    | refuse => exact absurd h (not_matches_of_refuse hd)
    | compare =>
      have hchain := ((matches_of_compare hd).mp h).2
      suffices hparts : env.get? k = some v ∨ ∃ (d : Category) (q u : Tree d),
          (∃ r ∈ p.parts, ⟨d, q⟩ ∈ r.2.phrases) ∧ (∃ r ∈ n.parts, ⟨d, u⟩ ∈ r.2.phrases) ∧
            Binds options q u k v by
        refine hparts.imp_right ?_
        rintro ⟨d, q, u, hq, hu, hb⟩
        exact ⟨d, q, u, Tree.mem_phrases.mpr (.inr hq), Tree.mem_phrases.mpr (.inr hu), hb⟩
      generalize p.parts = ps at ih hchain
      generalize n.parts = ns at hchain
      clear h hd
      induction hchain with
      | nil => exact .inl hk
      | cons hmid _ ihRest =>
        rcases ihRest hk fun q hq => ih q (List.mem_cons_of_mem _ hq) with
          hbefore | ⟨d, q, u, ⟨r, hr, hq⟩, ⟨r', hr', hu⟩, hb⟩
        · rcases ih _ List.mem_cons_self hmid hbefore with hbefore | ⟨d, q, u, hq, hu, hb⟩
          · exact .inl hbefore
          · exact .inr ⟨d, q, u, ⟨_, List.mem_cons_self, hq⟩, ⟨_, List.mem_cons_self, hu⟩, hb⟩
        · exact .inr ⟨d, q, u, ⟨r, List.mem_cons_of_mem _ hr, hq⟩, ⟨r', List.mem_cons_of_mem _ hr', hu⟩, hb⟩

/-- A hole has a value of some category in an environment, which has no holes in it. -/
def Holds (env : Environment) (c : Category) (k : Hole) : Prop :=
  ∃ v, env.get? k = some v ∧ ∃ u : Tree c, v.phrase = ⟨c, u⟩ ∧ u.holes = []

/-- What a hole is bound to has the category of the hole, or it is the declaration in a loop head. -/
theorem Binds.phrase {p n : Tree c} {k : Hole} {v : Bound} (hb : Binds options p n k v)
    (hn : n.holes = []) :
    (∃ u : Tree k.family.category, v.phrase = ⟨_, u⟩ ∧ u.holes = []) ∨
      p.declarationHole? = some k ∧ ∃ u : VarDecl, v.phrase = ⟨_, u⟩ ∧ u.holes = [] := by
  cases hb with
  | stmt _ => exact .inl ⟨_, rfl, hn⟩
  | expr => exact .inl ⟨_, rfl, hn⟩
  | name => exact .inl ⟨_, rfl, hn⟩
  | decl => exact .inr ⟨rfl, _, rfl, Tree.holes_part hn List.mem_cons_self⟩

/-- A match with a tree without holes gives every hole of the pattern a value. -/
theorem Matches.holds {p n : Tree c} (h : Matches options p n {} env) (hn : n.holes = []) {k : Hole}
    (hk : k ∈ p.holes) :
    Holds env k.family.category k ∨ k ∈ p.declarationHoles ∧ Holds env .varDecl k := by
  obtain ⟨v, hv⟩ := Option.isSome_iff_exists.mp ((keys_of_match h k).mpr hk)
  rcases h.origin hv with hempty | ⟨d, q, u, hq, hu, hb⟩
  · cases hempty
  · rcases hb.phrase (Tree.holes_of_phrase hn hu) with hvalue | ⟨hdeclaration, hvalue⟩
    · exact .inl ⟨v, hv, hvalue⟩
    · exact .inr ⟨List.mem_filterMap.mpr ⟨_, hq, hdeclaration⟩, v, hv, hvalue⟩

/-! ## Templates that can be filled -/

/-- An environment has what a template needs. -/
structure Serves (env : Environment) {c : Category} (t : Tree c) : Prop where
  dots : t.Everywhere fun q => q.2.dotNamed = true
  /-- A template that is a hole needs a phrase of its own category. -/
  root : ∀ k, t.hole? = some k → Holds env c k
  /-- So does a hole inside, but a loop head may as well be a declaration. -/
  inner : ∀ q ∈ t.phrases, ∀ r ∈ q.2.parts, ∀ k, r.2.hole? = some k →
    Holds env r.1 k ∨ q.1 = .forHead ∧ Holds env .varDecl k

theorem category_of_hole? {t : Tree c} {k : Hole} (h : t.hole? = some k) : k.family.category = c := by
  cases t with
  | nameHole _ => cases h; rfl
  | stmtHole _ _ => cases h; rfl
  | exprHole _ _ => cases h; rfl
  | _ => cases h

/-- What a match has bound serves the templates that the pattern supplies. -/
theorem Matches.serves {p n : Tree c} (h : Matches options p n {} env) (hn : n.holes = [])
    {d : Category} {t : Tree d} (ht : p.Supplies t) : Serves env t where
  dots := ht.dots
  root k hk := by
    rw [← category_of_hole? hk]
    refine (h.holds hn (ht.holes (Tree.mem_holes_of_hole? hk))).resolve_right fun hdeclaration => ?_
    refine ht.heads k hdeclaration.1 (List.mem_append_left _ ?_)
    rw [hk]
    exact List.mem_singleton_self k
  inner q hq r hr k hk := by
    have hmem : k ∈ t.holes := by
      refine List.mem_filterMap.mpr ⟨r, ?_, hk⟩
      exact Tree.mem_phrases_trans hq (Tree.mem_phrases_of_part hr (Tree.self_mem_phrases r.2))
    rw [← category_of_hole? hk]
    rcases h.holds hn (ht.holes hmem) with hvalue | ⟨hdeclaration, hvalue⟩
    · exact .inl hvalue
    · refine .inr ⟨?_, hvalue⟩
      by_contra hhead
      refine ht.heads k hdeclaration (List.mem_append_right _ (List.mem_flatMap.mpr ⟨q, hq, ?_⟩))
      rw [if_neg hhead]
      exact List.mem_filterMap.mpr ⟨r, hr, hk⟩

/-- What serves a template serves its parts, unless it is a loop head that becomes a declaration. -/
theorem Serves.part {t : Tree c} (h : Serves env t)
    (hhead : ∀ i, t.headHole? = some i → ∀ d, env.get? ⟨.expression, i⟩ ≠ some (.decl d))
    {q : Phrase} (hq : q ∈ t.parts) : Serves env q.2 where
  dots := h.dots.part hq
  root k hk := by
    refine (h.inner ⟨c, t⟩ t.self_mem_phrases q hq k hk).resolve_right ?_
    rintro ⟨hc, v, hv, u, hu, -⟩
    cases hc
    cases t with
    | declHead d =>
      obtain rfl := List.mem_singleton.mp hq
      cases d with
      | varDecl _ _ => cases hk
    | exprHead e =>
      obtain rfl := List.mem_singleton.mp hq
      cases e with
      | exprHole i b =>
        cases hk
        cases v with
        | decl d => exact hhead i rfl d hv
        | _ => cases hu
      | _ => cases hk
  inner r hr := h.inner r (Tree.mem_phrases_of_part hq hr)

theorem holes_of_adopted? {inner bound : Block} (h : adopted? env inner = some bound)
    (hinner : Serves env inner) : bound.holes = [] := by
  obtain ⟨i, multiLine, s, rfl, hget, hs⟩ := eq_of_adopted? h
  have hmem : (⟨_, .cons (.stmtHole i multiLine) .nil⟩ : Phrase) ∈
      (Tree.stmts (.cons (.stmtHole i multiLine) .nil)).phrases :=
    List.mem_cons_of_mem _ List.mem_cons_self
  rcases hinner.inner _ hmem ⟨_, .stmtHole i multiLine⟩ List.mem_cons_self _ rfl with
    ⟨v, hv, u, hu, hholes⟩ | ⟨hhead, -⟩
  · cases hget.symm.trans hv
    cases hu
    rcases hs with rfl | rfl | ⟨-, rfl⟩
    · exact Tree.holes_part (p := ⟨_, bound⟩) hholes List.mem_cons_self
    · exact Tree.holes_part (p := ⟨_, bound⟩) hholes List.mem_cons_self
    · rfl
  · cases hhead

/-- A template is filled from an environment that serves it, and no hole is left. -/
theorem exists_fill {depth : Nat} {t : Tree c} (h : Serves env t) :
    ∃ u, t.visit (fillHook env depth) = .ok u ∧ u.holes = [] := by
  induction t using Tree.induction_on_parts with
  | step c t ih =>
    cases hhole : t.hole? with
    | some k =>
      obtain ⟨v, hv, u, hu, hholes⟩ := h.root k hhole
      exact ⟨u, visit_of_hole hhole hv hu, hholes⟩
    | none =>
      by_cases hhead : ∃ i d, t.headHole? = some i ∧ env.get? ⟨.expression, i⟩ = some (.decl d)
      · obtain ⟨i, d, hi, hd⟩ := hhead
        cases t with
        | exprHead e =>
          cases e with
          | exprHole j b =>
            cases hi
            rcases h.inner _ (Tree.self_mem_phrases _) ⟨_, .exprHole i b⟩ List.mem_cons_self _ rfl with
              ⟨v, hv, u, hu, -⟩ | ⟨-, v, hv, u, hu, hholes⟩
            · cases hd.symm.trans hv
              cases hu
            · cases hd.symm.trans hv
              cases hu
              refine ⟨.declHead d, visit_head hd hholes, Tree.holes_of_parts rfl fun q hq => ?_⟩
              rw [List.mem_singleton.mp hq]
              exact hholes
          | _ => cases hi
        | _ => cases hi
      · have hpart := fun q hq => h.part (fun i hi d hd => hhead ⟨i, d, hi, hd⟩) (q := q) hq
        rcases visit_cases env depth hhole with
          hwalk | ⟨inner, bound, hblock, hadopted⟩ | ⟨i, b, d, hform, hd⟩
        · have hparts : ∀ q ∈ t.visited, ∃ u, q.2.visit (fillHook env depth) = .ok u ∧ u.holes = [] :=
            fun q hq => ih q (Tree.mem_parts_of_visited hq) (hpart q (Tree.mem_parts_of_visited hq))
          obtain ⟨us, hus⟩ := Tree.Related.exists_of_forall (R := fun _ q u =>
            q.visit (fillHook env depth) = .ok u ∧ u.holes = []) hparts
          refine ⟨t.rebuild us, ?_, ?_⟩
          · rw [hwalk, Tree.descend_eq]
            exact walkAll_ok (hus.imp fun _ _ _ hu => hu.1) _
          · refine Tree.holes_rebuild hus.aligned.symm hhole (fun q hq => ?_) fun u hu => ?_
            · exact Tree.holes_unvisited h.dots.self hq
            · exact (hus.exists_of_mem hu).choose_spec.2.2
        · cases hblock
          refine ⟨.blockStmt bound, ?_, Tree.holes_of_parts rfl fun q hq => ?_⟩
          · rw [Tree.visit, fillHook_block, hadopted]
          · rw [List.mem_singleton.mp hq]
            exact holes_of_adopted? hadopted (hpart ⟨_, inner⟩ List.mem_cons_self)
        · cases hform
          exact absurd ⟨i, d, rfl, hd⟩ hhead

/-- A template that the pattern of a match supplies is filled, and no hole is left. -/
theorem Matches.fill {p n : Tree c} (h : Matches options p n {} env) (hn : n.holes = [])
    {d : Category} {t : Tree d} (ht : p.Supplies t) : ∃ u, fillTree env t = .ok u ∧ u.holes = [] :=
  exists_fill (h.serves hn ht)

end Pattern

namespace Rule

variable {r : Rule} {options : MatchOptions}

/-! ## Rules that are complete -/

theorem Complete.applyToExpr? (hr : r.Complete) {e : Expr} (he : e.holes = [])
    {x : Except FillError Expr} (h : r.applyToExpr? options e = some x) :
    ∃ e', x = .ok e' ∧ e'.holes = [] := by
  obtain ⟨p, t, env, hp, ht, hmatch, hfill⟩ := applyToExpr?_eq_some h
  rw [Complete, hp, ht] at hr
  obtain ⟨e', he', hholes⟩ := hmatch.fill he hr
  exact ⟨e', hfill.symm.trans he', hholes⟩

theorem Complete.applyToStmt? (hr : r.Complete) {s : Stmt} (hs : s.holes = [])
    {x : Except FillError Stmt} (h : r.applyToStmt? options s = some x) :
    ∃ s', x = .ok s' ∧ s'.holes = [] := by
  obtain ⟨p, t, env, hp, -, ht, hmatch, hfill⟩ := applyToStmt?_eq_some h
  rw [Complete, hp, ht] at hr
  obtain ⟨s', hs', hholes⟩ := hmatch.fill hs hr
  exact ⟨s', hfill.symm.trans hs', hholes⟩

/-- The statements of a pattern supply what the pattern as a whole supplies. -/
theorem supplies_statements {inner : Block} {c : Category} {t : Tree c}
    (h : (Tree.sequence inner).Supplies t) : (Tree.ofList inner.statements).Supplies t := by
  cases inner with
  | stmts items =>
    have hblock : (Tree.stmts items).phrases = ⟨_, Tree.stmts items⟩ :: items.phrases :=
      (Tree.phrases_eq _).trans (congrArg (List.cons _) (List.append_nil items.phrases))
    have hphrases : (Tree.sequence (.stmts items)).phrases =
        ⟨_, Tree.sequence (.stmts items)⟩ :: (Tree.stmts items).phrases :=
      (Tree.phrases_eq _).trans (congrArg (List.cons _) (List.append_nil (Tree.stmts items).phrases))
    rw [hblock] at hphrases
    have hitems : Tree.ofList (Tree.stmts items).statements = items := Tree.ofList_toList items
    rw [hitems]
    refine ⟨h.dots, fun k hk => ?_, fun k hk => h.heads k ?_⟩
    · have hmem := h.holes hk
      rw [Tree.holes, hphrases] at hmem
      exact hmem
    · rw [Tree.declarationHoles, hphrases]
      exact hk

theorem Complete.applyToList? (hr : r.Complete) {ss : List Stmt} (hss : (Tree.ofList ss).holes = [])
    {x : Except FillError Stmt} (h : r.applyToList? options ss = some x) :
    ∃ s, x = .ok s ∧ s.holes = [] := by
  obtain ⟨inner, t, env, hp, ht, hmatch, hfill⟩ := applyToList?_eq_some h
  rw [Complete, hp, ht] at hr
  obtain ⟨s, hs, hholes⟩ := hmatch.fill hss (supplies_statements hr)
  exact ⟨s, hfill.symm.trans hs, hholes⟩

end Rule

namespace Pass

open Tree

/-! ## Statement lists without holes -/

theorem holes_ofList {c : Category} {ts : List (Tree c)} :
    (ofList ts).holes = [] ↔ ∀ t ∈ ts, t.holes = [] := by
  simp only [holes_eq_nil_iff, lasting_hole?.pervasive.everywhere_ofList]

theorem holes_blockOf {ss : List Stmt} : (blockOf ss).holes = [] ↔ ∀ s ∈ ss, s.holes = [] := by
  rw [← holes_ofList]
  constructor
  · intro h
    exact holes_part (p := ⟨_, ofList ss⟩) h List.mem_cons_self
  · intro h
    refine holes_of_parts rfl fun q hq => ?_
    rw [List.mem_singleton.mp hq]
    exact h

theorem holes_statements {b : Block} (h : b.holes = []) : ∀ s ∈ b.statements, s.holes = [] := by
  rw [← blockOf_statements b] at h
  exact holes_blockOf.mp h

theorem holes_splice {ss : List Stmt} (h : ∀ s ∈ ss, s.holes = []) : ∀ s ∈ splice ss, s.holes = [] :=
  fun s hs => holes_eq_nil_iff.mpr (everywhere_splice (fun t ht => holes_eq_nil_iff.mp (h t ht)) s hs)

theorem holes_members {s : Stmt} (h : s.holes = []) : ∀ t ∈ members s, t.holes = [] :=
  fun t ht => holes_eq_nil_iff.mpr (everywhere_members (holes_eq_nil_iff.mp h) t ht)

theorem holes_of_named {s s' : Stmt} (h : Named s s') (hs : s.holes = []) : s'.holes = [] := by
  cases h with
  | same => exact hs
  | renamed _ _ _ _ _ _ _ _ => exact hs

/-! ## Walks without failures -/

/-- The pass has not stopped at a template that cannot be filled. -/
def Unfailing (e : Option PassError) : Prop := ∀ rule cause, e ≠ some (.fill rule cause)

section

variable {ok : Option PassError → Prop} {α : Type} {x : Pass α} {Q : α → Prop}

theorem Meets.unlessStopped (hx : Meets ok x Q) {a : α} (ha : Q a) :
    Meets ok (do if ← stopped then return a else x) Q := by
  intro s hs
  show ok ((if s.error.isSome = true then (pure a : Pass α) else x).run s).2.error ∧
    Q ((if s.error.isSome = true then (pure a : Pass α) else x).run s).1
  split
  · exact ⟨hs, ha⟩
  · exact hx s hs

theorem meets_walkAll {R : (c : Category) → Tree c → Tree c → Prop} {c : Category}
    {f : (c : Category) → Tree c → Pass (Tree c)} {ps : List Phrase}
    (h : ∀ p ∈ ps, Meets ok (f p.1 p.2) (R p.1 p.2)) (build : List Phrase → Tree c) :
    Meets ok (walkAll f ps build) fun u => ∃ us, u = build us ∧ Related R ps us := by
  induction ps generalizing build with
  | nil => exact meets_pure ⟨[], rfl, .nil⟩
  | cons p ps ih =>
    refine (h p List.mem_cons_self).bind fun u hu => ?_
    refine (ih (fun q hq => h q (List.mem_cons_of_mem _ hq)) _).imp ?_
    rintro _ ⟨us, rfl, hus⟩
    exact ⟨⟨p.1, u⟩ :: us, rfl, .cons hu hus⟩

end

variable {table : RuleTable}

theorem meets_simplifyStmt_of_complete (htable : ∀ r ∈ table.rules, r.Complete) {s : Stmt}
    (hs : s.holes = []) : Meets Unfailing (simplifyStmt table s) fun s' => s'.holes = [] := by
  have happlies : ∀ {r x}, firstMatch? table (·.applyToStmt? table.options s) = some (r, x) →
      ∃ s', x = .ok s' ∧ s'.holes = [] := by
    intro r x hfirst
    obtain ⟨hr, happly⟩ := mem_of_firstMatch? hfirst
    exact (htable r hr).applyToStmt? hs happly
  refine (meets_simplifyStmt (fun _ _ _ => nofun) fun r cause hfirst => ?_).imp fun s'' h => ?_
  · obtain ⟨s', hs', -⟩ := happlies hfirst
    cases hs'
  · cases h with
    | same => exact hs
    | split parts => exact holes_eq_nil_iff.mpr (lasting_hole?.pervasive.everywhere_split (holes_eq_nil_iff.mp hs))
    | applied hfirst hnamed _ =>
      obtain ⟨_, hok, hholes⟩ := happlies hfirst
      cases hok
      exact holes_of_named hnamed hholes

theorem meets_applyToExpr_of_complete (htable : ∀ r ∈ table.rules, r.Complete) {e : Expr}
    (he : e.holes = []) : Meets Unfailing (applyToExpr table e) fun e' => e'.holes = [] := by
  have happlies : ∀ {r x}, firstMatch? table (·.applyToExpr? table.options e) = some (r, x) →
      ∃ e', x = .ok e' ∧ e'.holes = [] := by
    intro r x hfirst
    obtain ⟨hr, happly⟩ := mem_of_firstMatch? hfirst
    exact (htable r hr).applyToExpr? he happly
  refine (meets_applyToExpr fun r cause hfirst => ?_).imp ?_
  · obtain ⟨e', he', -⟩ := happlies hfirst
    cases he'
  · rintro e' (rfl | ⟨r, hfirst, -⟩)
    · exact he
    · obtain ⟨_, hok, hholes⟩ := happlies hfirst
      cases hok
      exact hholes

theorem meets_sweep_of_complete (htable : ∀ r ∈ table.rules, r.Complete) {ss : List Stmt}
    (hss : ∀ s ∈ ss, s.holes = []) :
    Meets Unfailing (sweep table ss) fun ss' => ∀ s ∈ ss', s.holes = [] := by
  have happlies : ∀ {rest m}, rest <:+ ss → windowAt? table rest = Option.some m →
      ∃ s, m.outcome = .ok s ∧ s.holes = [] := by
    intro rest m hrest hm
    obtain ⟨hr, -, happly⟩ := mem_of_windowAt? hm
    refine (htable m.rule hr).applyToList? (holes_ofList.mpr fun s hs => hss s ?_) happly
    exact hrest.mem (List.mem_of_mem_take hs)
  have hpermits : Permits Unfailing table ss := by
    constructor
    · intro rest m cause hrest hm hcause
      obtain ⟨s, hs, -⟩ := happlies hrest hm
      cases hcause.symm.trans hs
    · intro rest m s _ _ _ _ _ rule cause
      exact nofun
  refine (meets_sweep hpermits).imp fun ss' hss' s hs => ?_
  rcases hss' s hs with hs | ⟨rest, m, s', hrest, hm, houtcome, hs⟩
  · exact hss s hs
  · obtain ⟨_, hok, hholes⟩ := happlies hrest hm
    cases houtcome.symm.trans hok
    exact holes_members hholes s hs

theorem meets_descend {depth : Nat}
    (hwalk : ∀ c (t : Tree c), t.holes = [] → Meets Unfailing (walk table depth c t) fun u => u.holes = [])
    {c : Category} (t : Tree c) (ht : t.holes = []) :
    Meets Unfailing (t.descend (hookAt table depth)) fun u => u.holes = [] := by
  induction t using induction_on_parts with
  | step c t ih =>
    rw [descend_eq]
    refine (meets_walkAll (R := fun _ _ u => u.holes = []) (fun p hp => ?_) t.rebuild).imp ?_
    · have hpart := mem_parts_of_visited hp
      rw [hookAt]
      split
      · exact hwalk p.1 p.2 (holes_part ht hpart)
      · exact ih p hpart (holes_part ht hpart)
    · rintro _ ⟨us, rfl, hus⟩
      refine holes_rebuild hus.aligned.symm (hole?_of_holes ht) (fun q hq => ?_) fun u hu => ?_
      · exact holes_part ht (parts_eq t ▸ List.mem_append_right _ hq)
      · exact (hus.exists_of_mem hu).choose_spec.2

/-- With complete rules a walk never stops at a template, and leaves a phrase without holes. -/
theorem meets_walk (htable : ∀ r ∈ table.rules, r.Complete) (depth : Nat) {c : Category} (t : Tree c)
    (ht : t.holes = []) : Meets Unfailing (walk table depth c t) fun u => u.holes = [] := by
  induction depth generalizing c t with
  | zero => exact (meets_fail fun _ _ => nofun).bind fun _ _ => meets_pure ht
  | succ depth ih =>
    have hdescend : ∀ {c} (t : Tree c), t.holes = [] →
        Meets Unfailing (t.descend (hookAt table depth)) fun u => u.holes = [] :=
      fun t => meets_descend (fun _ t => ih t) t
    rw [walk_succ]
    cases c with
    | block =>
      refine Meets.unlessStopped ?_ ht
      refine (meets_sweep_of_complete htable (holes_statements ht)).bind fun ss hss => ?_
      refine (hdescend _ (holes_blockOf.mpr hss)).bind fun b hb => meets_pure ?_
      exact holes_blockOf.mpr (holes_splice (holes_statements hb))
    | stmt =>
      refine Meets.unlessStopped ?_ ht
      exact (meets_simplifyStmt_of_complete htable ht).bind hdescend
    | expr =>
      refine Meets.unlessStopped ?_ ht
      exact (meets_applyToExpr_of_complete htable ht).bind hdescend
    | body =>
      refine (hdescend t ht).bind fun b hb => ?_
      split
      · exact (meets_count _).bind fun _ _ => meets_pure hb
      · exact meets_pure hb
    | _ => exact hdescend t ht

/-- What a pass leaves has no holes, and no template was what stopped it. -/
structure Filled (result : Program × Except PassError Stats) : Prop where
  holes : result.1.body.holes = []
  unfailing : ∀ rule cause, result.2 ≠ .error (.fill rule cause)

end Pass

namespace RuleTable

open Pass

theorem filled_passTo {table : RuleTable} (htable : ∀ r ∈ table.rules, r.Complete) {p : Program}
    (hp : p.body.holes = []) (depth : Nat) : Filled (table.passTo depth p) := by
  obtain ⟨hunfailing, hholes⟩ :=
    meets_walk htable depth p.body hp { graph := p.scopeGraph } fun _ _ h => by cases h
  rw [passTo]
  generalize (walk table depth .block p.body).run { graph := p.scopeGraph } = result at hunfailing hholes
  obtain ⟨body, s⟩ := result
  cases herror : s.error with
  | none =>
    rw [outcome_of_none herror, ScopeGraph.fst_applyRenames]
    refine ⟨?_, fun _ _ h => by cases h⟩
    rw [ScopeGraph.holes_renamed]
    exact hholes
  | some e =>
    rw [outcome_of_some herror]
    refine ⟨hholes, fun rule cause h => hunfailing rule cause (herror.trans ?_)⟩
    cases h
    rfl

/-- **Complete rules never fail.** With rules whose patterns supply their templates, no pass over a
program without holes stops at a template, whatever the settings of the matcher and however deep the
pass goes into replacements; and there are no holes in what it leaves. -/
theorem filled_pass {table : RuleTable} (htable : ∀ r ∈ table.rules, r.Complete) {p : Program}
    (hp : p.body.holes = []) : Filled (table.pass p) ∧ ∀ depth, Filled (table.passTo depth p) :=
  ⟨filled_passTo htable hp _, filled_passTo htable hp⟩

/-- The rule that puts `var placeholder1 = expression1;` in the place of
`var placeholder1; placeholder1 = expression1;`. -/
def joinRule : Rule where
  name := "join"
  pattern := .stmt (.sequence (Tree.blockOf [
    .varStmt (.varDecl .var (.ofList [.declarator (.nameBinder (.nameHole 1)) .none])),
    .exprStmt (.assign .assign (.identExpr (.nameHole 1)) (.exprHole 1 false))]))
  replacement := .stmt (.varStmt (.varDecl .var (.ofList [
    .declarator (.nameBinder (.nameHole 1)) (.some (.exprHole 1 false))])))
  agree := rfl

/-- `var a; a = void 0; for (var x of a) f(x);` -/
def joinUse : Program where
  body := Tree.blockOf [
    .varStmt (.varDecl .var (.ofList [.declarator (.nameBinder (.ident "a" (some 4))) .none])),
    .exprStmt (.assign .assign (.identExpr (.ident "a" (some 7)))
      (.unary .void (.literal (.number ⟨0⟩)))),
    .forOf false
      (.declHead (.varDecl .var (.ofList [.declarator (.nameBinder (.ident "x" (some 29))) .none])))
      (.identExpr (.ident "a" (some 34)))
      (.body (.exprStmt (.call false (.identExpr (.ident "f" (some 37)))
        (.ofList [.identExpr (.ident "x" (some 39))]))))]

/-- The built-in rules and one for statement lists: a loop head that is a declaration is put into a
template, and rules are applied inside what the rule for lists puts in. -/
theorem filled_pass_joinUse :
    let table : RuleTable :=
      { rules := Builtin.all.map Builtin.rule ++ [Builtin.interopRule, joinRule] }
    (∀ r ∈ table.rules, r.Complete) ∧ joinUse.body.holes = [] ∧
      Filled (table.pass joinUse) ∧ ∀ depth, Filled (table.passTo depth joinUse) := by
  intro table
  have htable : ∀ r ∈ table.rules, r.Complete := by decide +kernel
  have hholes : joinUse.body.holes = [] := by decide
  exact ⟨htable, hholes, filled_pass htable hholes⟩

end RuleTable

end Unminify
