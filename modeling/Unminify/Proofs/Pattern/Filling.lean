import Unminify.Pass.Splice
import Unminify.Pattern.Fill
import Unminify.Proofs.Pattern.Fitting
import Unminify.Proofs.Syntax.Reached

/-!
# Filling

Filling and matching are inverse to each other on regular patterns, those whose dot accesses are
named and in which no block is a lone statement hole.

* `fill_of_match` — filling a pattern with what a match has bound gives back the tree matched, up to
  positions;
* `match_of_fill` — a pattern filled with values of the right kinds matches, and the match finds
  these values again.

Both go through fitting: `visit_of_fits` fills from an environment under which the pattern fits, and
`fits_of_visit` says that the pattern fits what it is filled to.
-/

namespace Unminify

/-- The phrase that is bound. -/
def Bound.phrase : Bound → Phrase
  | name t => ⟨_, t⟩
  | stmt t => ⟨_, t⟩
  | expr t => ⟨_, t⟩
  | decl t => ⟨_, t⟩

/-- The tree of a pattern. -/
def Pattern.phrase : Pattern → Phrase
  | expr tree => ⟨_, tree⟩
  | stmt tree => ⟨_, tree⟩

/-- The value, if it is a phrase of a category. -/
def Bound.at? : (c : Category) → Bound → Option (Tree c)
  | .name, .name value => some value
  | .stmt, .stmt value => some value
  | .expr, .expr value => some value
  | .varDecl, .decl value => some value
  | _, _ => none

theorem Bound.at?_eq_some {c : Category} {v : Bound} {t : Tree c} :
    v.at? c = some t ↔ v.phrase = ⟨c, t⟩ := by
  constructor
  · intro h
    unfold at? at h
    split at h <;> cases h <;> rfl
  · intro h
    cases v <;> cases h <;> rfl

theorem Bound.same_self {v : Bound} (h : v.phrase.2.NaNFree) : v.same v = true := by
  cases v <;> exact Tree.same_refl h

/-! ## Regular patterns -/

namespace Tree

/-- Whether a phrase, if it is a dot access, has a string literal for its property. -/
def dotNamed : {c : Category} → Tree c → Bool
  | _, .access false _ _ (.literal (.string _)) => true
  | _, .access false _ _ _ => false
  | _, _ => true

/-- Whether a phrase is a block with one statement hole and nothing else. -/
def loneHole : {c : Category} → Tree c → Bool
  | _, .blockStmt inner =>
    match inner.statements with
    | [.stmtHole _ _] => true
    | _ => false
  | _, _ => false

/-- Dot accesses are named by string literals, and no block is a lone statement hole. -/
def Regular {c : Category} (p : Tree c) : Prop :=
  ∀ q ∈ p.phrases, q.2.dotNamed = true ∧ q.2.loneHole = false

instance {c : Category} (p : Tree c) : Decidable p.Regular :=
  inferInstanceAs (Decidable (∀ q ∈ p.phrases, q.2.dotNamed = true ∧ q.2.loneHole = false))

theorem Regular.part {c : Category} {p : Tree c} (h : p.Regular) {q : Phrase} (hq : q ∈ p.parts) :
    q.2.Regular :=
  fun r hr => h r (mem_phrases_of_part hq hr)

/-- What walks leave out of a named dot access is its string. -/
theorem exists_string_of_unvisited {c : Category} {p : Tree c} (h : p.dotNamed = true) {q : Phrase}
    (hq : q ∈ p.unvisited) : ∃ text, q = ⟨.expr, .literal (.string text)⟩ := by
  cases p with
  | access computed optional target prop =>
    cases computed with
    | true => cases hq
    | false =>
      obtain rfl := List.mem_singleton.mp hq
      cases prop with
      | literal l =>
        cases l with
        | string text => exact ⟨text, rfl⟩
        | _ => cases h
      | _ => cases h
  | _ => cases hq

/-- A named dot access has no holes in what walks leave out. -/
theorem holes_unvisited {c : Category} {p : Tree c} (h : p.dotNamed = true) {q : Phrase}
    (hq : q ∈ p.unvisited) : q.2.holes = [] := by
  obtain ⟨text, rfl⟩ := exists_string_of_unvisited h hq
  rfl

/-- The parts of a regular pattern that walks leave out have no holes. -/
theorem Regular.unvisited {c : Category} {p : Tree c} (h : p.Regular) {q : Phrase}
    (hq : q ∈ p.unvisited) : q.2.holes = [] :=
  holes_unvisited (h _ p.self_mem_phrases).1 hq

/-- The expression hole that is the whole of a loop head. -/
def headHole? : {c : Category} → Tree c → Option Nat
  | _, .exprHead (.exprHole index _) => Option.some index
  | _, _ => Option.none

theorem headHole?_of_holes {c : Category} {t : Tree c} (h : t.holes = []) :
    t.headHole? = Option.none := by
  cases t with
  | exprHead e =>
    cases e with
    | exprHole _ _ => cases h
    | _ => rfl
  | _ => rfl

theorem loneHole_of_holes {c : Category} {t : Tree c} (h : t.holes = []) : t.loneHole = false := by
  cases t with
  | blockStmt inner =>
    cases inner with
    | stmts ss =>
      rw [← ofList_toList ss] at h
      simp only [loneHole, statements]
      split
      · rename_i hss
        rw [hss] at h
        cases h
      · rfl
  | _ => rfl

end Tree

namespace Pattern

/-! ## What filling does at a phrase -/

theorem fillHook_head {env : Environment} {depth i : Nat} {b : Bool}
    {walk : Unit → Except FillError (Tree .forHead)} :
    fillHook env depth _ (.exprHead (.exprHole i b)) walk =
      match env.get? ⟨.expression, i⟩ with
      | some (.decl d) =>
        match depth with
        | 0 => .ok (.declHead d)
        | depth + 1 => do return .declHead (← d.visit (fillHook env depth))
      | _ => walk () := by
  unfold fillHook
  rfl

theorem fillHook_block {env : Environment} {depth : Nat} {inner : Block}
    {walk : Unit → Except FillError Stmt} :
    fillHook env depth _ (.blockStmt inner) walk =
      match adopted? env inner with
      | some bound => .ok (.blockStmt bound)
      | none => walk () := by
  unfold fillHook
  rfl

/-- Where there is no hole to fill, filling goes on to the parts. -/
theorem fillHook_eq_walk {env : Environment} {depth : Nat} {c : Category} {p : Tree c}
    {walk : Unit → Except FillError (Tree c)} (hhole : p.hole? = none) (hlone : p.loneHole = false)
    (hhead : ∀ i, p.headHole? = some i → ∀ d, env.get? ⟨.expression, i⟩ ≠ some (.decl d)) :
    fillHook env depth c p walk = walk () := by
  cases p with
  | stmtHole _ _ => cases hhole
  | exprHole _ _ => cases hhole
  | nameHole _ => cases hhole
  | blockStmt inner =>
    have hadopted : adopted? env inner = none := by
      unfold adopted?
      split
      · rename_i hinner
        rw [Tree.loneHole, hinner] at hlone
        cases hlone
      · rfl
    unfold fillHook
    simp only [hadopted]
  | exprHead e =>
    cases e with
    | exprHole i _ =>
      have hdecl := hhead i rfl
      rw [fillHook_head]
      split
      · rename_i d hd
        exact absurd hd (hdecl d)
      · rfl
    | _ => unfold fillHook; rfl
  | _ => unfold fillHook; rfl

/-- Filling puts the value of a hole in its place, if it has one of the kind. -/
theorem fillHook_hole {env : Environment} {depth : Nat} {c : Category} {t : Tree c} {h : Hole}
    (ht : t.hole? = some h) {walk : Unit → Except FillError (Tree c)} :
    fillHook env depth c t walk =
      match env.get? h with
      | some v => (v.at? c).elim (.error (.mismatch h)) .ok
      | none => .error (.unbound h) := by
  cases t with
  | stmtHole index multiLine =>
    cases ht
    unfold fillHook
    dsimp only
    rcases env.get? ⟨.statement, index⟩ with _ | (_ | _ | _ | _) <;> rfl
  | exprHole index orDeclaration =>
    cases ht
    unfold fillHook
    dsimp only
    rcases env.get? ⟨.expression, index⟩ with _ | (_ | _ | _ | _) <;> rfl
  | nameHole index =>
    cases ht
    unfold fillHook
    dsimp only
    rcases env.get? ⟨.generic, index⟩ with _ | (_ | _ | _ | _) <;> rfl
  | _ => cases ht

/-- A template that is a hole is filled with the value of the hole. -/
theorem phrase_of_visit_hole {env : Environment} {depth : Nat} {c : Category} {p u : Tree c} {k : Hole}
    {w : Bound} (hk : p.hole? = some k) (h : p.visit (fillHook env depth) = .ok u)
    (hw : env.get? k = some w) : w.phrase = ⟨c, u⟩ := by
  rw [Tree.visit, fillHook_hole hk] at h
  simp only [hw] at h
  cases ht : w.at? c with
  | none =>
    rw [ht] at h
    cases h
  | some t =>
    rw [ht] at h
    cases h
    exact Bound.at?_eq_some.mp ht

/-- A hole that has a value of its category is filled with it. -/
theorem visit_of_hole {env : Environment} {depth : Nat} {c : Category} {t u : Tree c} {k : Hole}
    {v : Bound} (hk : t.hole? = some k) (hv : env.get? k = some v) (hu : v.phrase = ⟨c, u⟩) :
    t.visit (fillHook env depth) = .ok u := by
  simp only [Tree.visit, fillHook_hole hk, hv, Bound.at?_eq_some.mpr hu, Option.elim_some]

/-- What a block that is one statement hole is filled with. -/
theorem eq_of_adopted? {env : Environment} {inner bound : Block} (h : adopted? env inner = some bound) :
    ∃ i multiLine s, inner = .stmts (.cons (.stmtHole i multiLine) .nil) ∧
      env.get? ⟨.statement, i⟩ = some (.stmt s) ∧
      (s = .blockStmt bound ∨ s = .sequence bound ∨ s = .emptyStmt ∧ bound = .stmts .nil) := by
  unfold adopted? at h
  split at h
  · rename_i i multiLine hinner
    have hblock : inner = .stmts (.cons (.stmtHole i multiLine) .nil) := by
      rw [← Tree.blockOf_statements inner, hinner]
      rfl
    split at h
    · cases h
      exact ⟨i, multiLine, _, hblock, ‹_›, .inl rfl⟩
    · cases h
      exact ⟨i, multiLine, _, hblock, ‹_›, .inr (.inl rfl)⟩
    · cases h
      exact ⟨i, multiLine, _, hblock, ‹_›, .inr (.inr ⟨rfl, rfl⟩)⟩
    · cases h
  · cases h

/-- A template that is no hole is filled part by part, unless it is a block or a loop head made of a
hole that gives it another form. -/
theorem visit_cases (env : Environment) (fuel : Nat) {c : Category} {p : Tree c} (hhole : p.hole? = none) :
    p.visit (fillHook env fuel) = p.descend (fillHook env fuel) ∨
      (∃ inner bound, (⟨c, p⟩ : Phrase) = ⟨.stmt, .blockStmt inner⟩ ∧ adopted? env inner = some bound) ∨
      ∃ i b d, (⟨c, p⟩ : Phrase) = ⟨.forHead, .exprHead (.exprHole i b)⟩ ∧
        env.get? ⟨.expression, i⟩ = some (.decl d) := by
  cases p with
  | blockStmt inner =>
    cases hadopted : adopted? env inner with
    | none =>
      refine .inl ?_
      rw [Tree.visit, fillHook_block, hadopted]
    | some bound => exact .inr (.inl ⟨inner, bound, rfl, hadopted⟩)
  | exprHead e =>
    cases e with
    | exprHole i b =>
      by_cases hd : ∃ d, env.get? ⟨.expression, i⟩ = some (.decl d)
      · obtain ⟨d, hd⟩ := hd
        exact .inr (.inr ⟨i, b, d, rfl, hd⟩)
      · refine .inl (fillHook_eq_walk hhole rfl fun j hj d hd' => hd ⟨d, ?_⟩)
        cases hj
        exact hd'
    | _ => exact .inl (fillHook_eq_walk hhole rfl fun i hi => by cases hi)
  | stmtHole _ _ => cases hhole
  | exprHole _ _ => cases hhole
  | nameHole _ => cases hhole
  | _ => exact .inl (fillHook_eq_walk hhole rfl fun i hi => by cases hi)

theorem exists_of_bind_eq_ok {ε α β : Type} {x : Except ε α} {f : α → Except ε β} {b : β}
    (h : x >>= f = .ok b) : ∃ a, x = .ok a ∧ f a = .ok b := by
  cases x with
  | error e => cases h
  | ok a => exact ⟨a, rfl, h⟩

theorem walkAll_eq_ok {ε : Type} {c : Category} {f : (c : Category) → Tree c → Except ε (Tree c)}
    {ps : List Phrase} {build : List Phrase → Tree c} {u : Tree c} (h : Tree.walkAll f ps build = .ok u) :
    ∃ us, Tree.Related (fun c t u => f c t = .ok u) ps us ∧ u = build us := by
  induction ps generalizing build with
  | nil => exact ⟨[], .nil, (Except.ok.inj h).symm⟩
  | cons p ps ih =>
    obtain ⟨v, hp, hrest⟩ := exists_of_bind_eq_ok h
    obtain ⟨us, hus, rfl⟩ := ih hrest
    exact ⟨⟨p.1, v⟩ :: us, .cons hp hus, rfl⟩

theorem walkAll_ok {ε : Type} {f : (c : Category) → Tree c → Except ε (Tree c)} {ps us : List Phrase}
    (h : Tree.Related (fun c p u => f c p = .ok u) ps us) {c : Category}
    (build : List Phrase → Tree c) : Tree.walkAll f ps build = .ok (build us) := by
  induction h generalizing build with
  | nil => rfl
  | cons hu _ ih =>
    rw [Tree.walkAll, hu]
    exact ih _

/-- Filling the parts fills the whole. -/
theorem visit_of_parts {env : Environment} {depth : Nat} {c : Category} {p : Tree c}
    {us : List Phrase} (hhole : p.hole? = none) (hlone : p.loneHole = false)
    (hhead : ∀ i, p.headHole? = some i → ∀ d, env.get? ⟨.expression, i⟩ ≠ some (.decl d))
    (h : Tree.Related (fun _ q u => q.visit (fillHook env depth) = .ok u) p.visited us) :
    p.visit (fillHook env depth) = .ok (p.rebuild us) := by
  rw [Tree.visit, fillHook_eq_walk hhole hlone hhead, Tree.descend_eq]
  exact walkAll_ok h _

/-- Filling leaves a tree without holes as it is. -/
theorem visit_of_holes {env : Environment} {depth : Nat} {c : Category} {t : Tree c}
    (h : t.holes = []) : t.visit (fillHook env depth) = .ok t := by
  induction t using Tree.induction_on_parts with
  | step c t ih =>
    have hparts : Tree.Related (fun _ q u => q.visit (fillHook env depth) = .ok u) t.visited t.visited :=
      .refl fun q hq => by
        have hq : q ∈ t.parts := t.parts_eq ▸ List.mem_append_left _ hq
        exact ih q hq (Tree.holes_part h hq)
    have hhead : ∀ i, t.headHole? = some i → ∀ d, env.get? ⟨.expression, i⟩ ≠ some (.decl d) := by
      intro i hi
      rw [Tree.headHole?_of_holes h] at hi
      cases hi
    rw [visit_of_parts (Tree.hole?_of_holes h) (Tree.loneHole_of_holes h) hhead hparts,
      Tree.rebuild_visited]

/-- A declaration without holes is put into a loop head as it is. -/
theorem visit_head {env : Environment} {depth i : Nat} {b : Bool} {d : VarDecl}
    (hd : env.get? ⟨.expression, i⟩ = some (.decl d)) (hholes : d.holes = []) :
    (Tree.exprHead (.exprHole i b)).visit (fillHook env depth) = .ok (.declHead d) := by
  rw [Tree.visit, fillHook_head, hd]
  cases depth with
  | zero => rfl
  | succ depth =>
    simp only [visit_of_holes hholes]
    rfl

variable {options : MatchOptions}

/-- A hole that stands for a phrase is filled with the same. -/
theorem visit_of_binds {env : Environment} {depth : Nat} {c : Category} {p n : Tree c} {k : Hole}
    {v w : Bound} (hb : Binds options p n k v) (hw : env.get? k = some w) (hsame : w.same v = true)
    (hn : n.holes = []) : ∃ n', p.visit (fillHook env depth) = .ok n' ∧ n'.same n = true := by
  cases hb with
  | stmt _ =>
    cases w with
    | stmt t => exact ⟨t, by unfold Tree.visit fillHook; simp only [hw], hsame⟩
    | _ => cases hsame
  | expr =>
    cases w with
    | expr t => exact ⟨t, by unfold Tree.visit fillHook; simp only [hw], hsame⟩
    | _ => cases hsame
  | name =>
    cases w with
    | name t => exact ⟨t, by unfold Tree.visit fillHook; simp only [hw], hsame⟩
    | _ => cases hsame
  | decl =>
    cases w with
    | decl d =>
      refine ⟨.declHead d, visit_head hw ?_, hsame⟩
      rw [Tree.holes_eq_of_same hsame]
      exact Tree.holes_part hn List.mem_cons_self
    | _ => cases hsame

/-! ## Filling what has been matched -/

/-- Where a pattern is compared and its parts fit, no loop head is a hole for a declaration. -/
theorem headHole?_of_fits {env : Environment} {c : Category} {p n : Tree c}
    (hparts : Tree.Related (fun _ q u => fits options env q u = true) p.parts n.parts) {i : Nat}
    (hi : p.headHole? = some i) (d : VarDecl) : env.get? ⟨.expression, i⟩ ≠ some (.decl d) := by
  cases p with
  | exprHead e =>
    cases e with
    | exprHole j b =>
      obtain rfl : j = i := Option.some.inj hi
      intro hd
      generalize n.parts = ns at hparts
      cases hparts with
      | cons hfit _ =>
        obtain ⟨w, hw, hsame⟩ := (fits_of_binds .expr).mp hfit
        rw [hd] at hw
        cases hw
        cases hsame
    | _ => cases hi
  | _ => cases hi

/-- A pattern is filled to what it fits. -/
theorem visit_of_fits {env : Environment} {depth : Nat} {c : Category} {p n : Tree c}
    (hp : p.Regular) (hn : n.holes = []) (h : fits options env p n = true) :
    ∃ n', p.visit (fillHook env depth) = .ok n' ∧ n'.same n = true := by
  induction p using Tree.induction_on_parts with
  | step c p ih =>
    cases hd : demand options p n with
    | bind k v =>
      have hb := binds_of_demand hd
      obtain ⟨w, hw, hsame⟩ := (fits_of_binds hb).mp h
      exact visit_of_binds hb hw hsame hn
    | refuse => exact absurd h (by rw [not_fits_of_refuse hd]; exact Bool.false_ne_true)
    | compare =>
      obtain ⟨hform, hparts⟩ := (fits_of_compare hd).mp h
      have hhead := fun i hi => headHole?_of_fits hparts (i := i) hi
      have hholes : ∀ q ∈ n.parts, q.2.holes = [] := fun q hq => Tree.holes_part hn hq
      rw [p.parts_eq] at hparts
      obtain ⟨ns, ns', hns, hvisited, hrest⟩ := hparts.of_append
      have hfilled : Tree.Related (fun _ q m => ∃ u, q.visit (fillHook env depth) = .ok u ∧
          u.same m = true) p.visited ns := by
        refine hvisited.imp_mem fun q hq m hm hfit => ?_
        have hq : q ∈ p.parts := p.parts_eq ▸ List.mem_append_left _ hq
        exact ih q hq (hp.part hq) (hholes _ (hns ▸ List.mem_append_left _ hm)) hfit
      obtain ⟨us, hus, hsame⟩ := hfilled.between
      have hlone := (hp _ p.self_mem_phrases).2
      refine ⟨p.rebuild us, visit_of_parts (hole?_of_compare hd) hlone hhead hus, ?_⟩
      refine Tree.same_iff.mpr ⟨by rw [Tree.sameForm_rebuild, hform], ?_⟩
      rw [Tree.parts_eq, Tree.visited_rebuild hus.aligned.symm, Tree.unvisited_rebuild, hns]
      refine hsame.append (hrest.imp fun q hq u hu => ?_)
      exact (fits_iff_same (hp.unvisited hq)).mp hu

theorem matchTree_eq_some {c : Category} {p n : Tree c} {env : Environment} :
    matchTree options p n = some env ↔ Matches options p n {} env := by
  rw [Matches, matchTree]
  rcases (p.compare (matchHook options) n).run {} with ⟨_ | _, env'⟩
  · constructor
    · intro h
      cases h
    · intro h
      cases h
  · constructor
    · intro h
      exact congrArg (true, ·) (Option.some.inj h)
    · intro h
      exact congrArg some (Prod.mk.inj h).2

/-- A match binds the holes of the pattern and no others. -/
theorem keys_of_match {c : Category} {p n : Tree c} {env : Environment}
    (h : Matches options p n {} env) (k : Hole) : (env.get? k).isSome = true ↔ k ∈ p.holes := by
  have hempty : ({} : Environment).get? k = none := rfl
  rw [h.effect.2 k, hempty]
  exact ⟨fun h => h.resolve_left Bool.false_ne_true, .inr⟩

/-- Filling undoes matching: the holes of the pattern are what a match binds, and the pattern filled
with the values bound is the tree that was matched. -/
theorem fill_of_match {c : Category} {p n : Tree c} (hp : p.Regular) (hholes : n.holes = [])
    (hnan : n.NaNFree) {env : Environment} (h : matchTree options p n = some env) :
    (∀ k, (env.get? k).isSome = true ↔ k ∈ p.holes) ∧
      ∃ n', fillTree env p = .ok n' ∧ n'.same n = true := by
  have hmatch := matchTree_eq_some.mp h
  exact ⟨keys_of_match hmatch, visit_of_fits hp hholes (hmatch.fits hnan)⟩

/-- A loop whose head and body are holes, and a loop over a declaration. -/
theorem fill_of_match_loop :
    let p : Stmt := .forOf false (.exprHead (.exprHole 1 true)) (.exprHole 2 false)
      (.body (.exprStmt (.access false false (.exprHole 2 false) (.literal (.string "x")))))
    let n : Stmt := .forOf false
      (.declHead (.varDecl .var (.cons (.declarator (.nameBinder (.ident "i" (some 9))) .none) .nil)))
      (.identExpr (.ident "a" (some 14)))
      (.body (.exprStmt
        (.access false false (.identExpr (.ident "a" (some 17))) (.literal (.string "x")))))
    ∃ env, matchTree {} p n = some env ∧ (∀ k, (env.get? k).isSome = true ↔ k ∈ p.holes) ∧
      ∃ n', fillTree env p = .ok n' ∧ n'.same n = true :=
  ⟨_, rfl, fill_of_match (by decide) (by decide) (by decide) rfl⟩

/-! ## Matching what has been filled -/

/-- An expression hole that occurs only as the whole of loop heads that admit declarations. -/
def HeadsOnly (index : Nat) {c : Category} (p : Tree c) : Prop :=
  (∀ b, (⟨c, p⟩ : Phrase) ≠ ⟨.expr, .exprHole index b⟩) ∧
    ∀ q ∈ p.phrases, ∀ b, ⟨.expr, .exprHole index b⟩ ∈ q.2.parts →
      q = ⟨.forHead, .exprHead (.exprHole index true)⟩

/-- An environment holds values of the right kinds for the holes of a pattern. -/
structure Suits (options : MatchOptions) (s : Environment) {c : Category} (p : Tree c) : Prop where
  /-- Holes for names hold names. -/
  name : ∀ i, ⟨.generic, i⟩ ∈ p.holes → ∃ t, s.get? ⟨.generic, i⟩ = some (.name t)
  /-- Holes for statements hold statements, compound ones where that is asked for. -/
  stmt : ∀ i multiLine, ⟨.stmt, .stmtHole i multiLine⟩ ∈ p.phrases →
    ∃ t, s.get? ⟨.statement, i⟩ = some (.stmt t) ∧
      (multiLine = true → options.compoundKinds.contains t.kind = true)
  /-- Holes for expressions hold expressions, or else a declaration. -/
  expr : ∀ i, ⟨.expression, i⟩ ∈ p.holes →
    (∃ t, s.get? ⟨.expression, i⟩ = some (.expr t)) ∨
      (∃ d, s.get? ⟨.expression, i⟩ = some (.decl d)) ∧ HeadsOnly i p
  /-- The values have no holes themselves, and no non-numbers. -/
  closed : ∀ k ∈ p.holes, ∀ v, s.get? k = some v → v.phrase.2.holes = [] ∧ v.phrase.2.NaNFree

/-- Values that suit a pattern suit its parts, unless the pattern is a loop head made of a hole that
holds a declaration. -/
theorem Suits.part {s : Environment} {c : Category} {p : Tree c} (h : Suits options s p)
    (hhead : ∀ i, p.headHole? = some i → ∀ d, s.get? ⟨.expression, i⟩ ≠ some (.decl d))
    {q : Phrase} (hq : q ∈ p.parts) : Suits options s q.2 where
  name i hi := h.name i (Tree.mem_holes_of_part hq hi)
  stmt i multiLine hi := h.stmt i multiLine (Tree.mem_phrases_of_part hq hi)
  expr i hi := by
    refine (h.expr i (Tree.mem_holes_of_part hq hi)).imp_right ?_
    rintro ⟨⟨d, hd⟩, -, honly⟩
    refine ⟨⟨d, hd⟩, fun b hb => ?_, fun r hr => honly r (Tree.mem_phrases_of_part hq hr)⟩
    have hself := honly ⟨c, p⟩ p.self_mem_phrases b (hb ▸ hq)
    refine hhead i ?_ d hd
    cases hself
    rfl
  closed k hk := h.closed k (Tree.mem_holes_of_part hq hk)

/-- A hole is filled with its value, which it can stand for. -/
theorem fits_of_hole {s : Environment} {depth : Nat} {c : Category} {p : Tree c} {k : Hole}
    (hk : p.hole? = some k) (h : Suits options s p) :
    ∃ n, p.visit (fillHook s depth) = .ok n ∧ fits options s p n = true := by
  have hmem : k ∈ p.holes := Tree.mem_holes_of_hole? hk
  cases p with
  | stmtHole i multiLine =>
    cases hk
    obtain ⟨t, ht, hkind⟩ := h.stmt i multiLine (Tree.self_mem_phrases _)
    have hsame := Bound.same_self (h.closed _ hmem _ ht).2
    refine ⟨t, ?_, (fits_of_binds (.stmt hkind)).mpr ⟨_, ht, hsame⟩⟩
    unfold Tree.visit fillHook
    simp only [ht]
  | exprHole i orDeclaration =>
    cases hk
    rcases h.expr i hmem with ⟨t, ht⟩ | ⟨-, hroot, -⟩
    · have hsame := Bound.same_self (h.closed _ hmem _ ht).2
      refine ⟨t, ?_, (fits_of_binds .expr).mpr ⟨_, ht, hsame⟩⟩
      unfold Tree.visit fillHook
      simp only [ht]
    · exact absurd rfl (hroot orDeclaration)
  | nameHole i =>
    cases hk
    obtain ⟨t, ht⟩ := h.name i hmem
    have hclosed := h.closed _ hmem _ ht
    have hsame := Bound.same_self hclosed.2
    cases t with
    | ident text id =>
      refine ⟨.ident text id, ?_, (fits_of_binds .name).mpr ⟨_, ht, hsame⟩⟩
      unfold Tree.visit fillHook
      simp only [ht]
    | nameHole j => cases hclosed.1
  | _ => cases hk

/-- A loop head made of a hole is filled with the declaration that the hole holds. -/
theorem fits_of_headHole {s : Environment} {depth : Nat} {c : Category} {p : Tree c} {i : Nat}
    {d : VarDecl} (hi : p.headHole? = some i) (hd : s.get? ⟨.expression, i⟩ = some (.decl d))
    (h : Suits options s p) :
    ∃ n, p.visit (fillHook s depth) = .ok n ∧ fits options s p n = true := by
  cases p with
  | exprHead e =>
    cases e with
    | exprHole j b =>
      cases hi
      have hmem : ⟨.expression, i⟩ ∈ (Tree.exprHead (.exprHole i b)).holes := List.mem_cons_self
      have hclosed := h.closed _ hmem _ hd
      rcases h.expr i hmem with ⟨t, ht⟩ | ⟨-, -, honly⟩
      · rw [hd] at ht
        cases ht
      · have hself := honly _ (Tree.self_mem_phrases _) b List.mem_cons_self
        cases hself
        refine ⟨.declHead d, visit_head hd hclosed.1, ?_⟩
        exact (fits_of_binds .decl).mpr ⟨_, hd, Bound.same_self hclosed.2⟩
    | _ => cases hi
  | _ => cases hi

/-- A pattern fits what it is filled to. -/
theorem fits_of_visit {s : Environment} {depth : Nat} {c : Category} {p : Tree c} (hp : p.Regular)
    (hnan : p.NaNFree) (h : Suits options s p) :
    ∃ n, p.visit (fillHook s depth) = .ok n ∧ fits options s p n = true := by
  induction p using Tree.induction_on_parts with
  | step c p ih =>
    cases hhole : p.hole? with
    | some k => exact fits_of_hole hhole h
    | none =>
      by_cases hhead : ∃ i d, p.headHole? = some i ∧ s.get? ⟨.expression, i⟩ = some (.decl d)
      · obtain ⟨i, d, hi, hd⟩ := hhead
        exact fits_of_headHole hi hd h
      · replace hhead : ∀ i, p.headHole? = some i →
            ∀ d, s.get? ⟨.expression, i⟩ ≠ some (.decl d) :=
          fun i hi d hd => hhead ⟨i, d, hi, hd⟩
        have hparts : ∀ q ∈ p.visited,
            ∃ u, q.2.visit (fillHook s depth) = .ok u ∧ fits options s q.2 u = true := by
          intro q hq
          have hq : q ∈ p.parts := p.parts_eq ▸ List.mem_append_left _ hq
          exact ih q hq (hp.part hq) (hnan.part hq) (h.part hhead hq)
        obtain ⟨us, hus⟩ : ∃ us, Tree.Related (fun _ q u => q.visit (fillHook s depth) = .ok u ∧
            fits options s q u = true) p.visited us := Tree.Related.exists_of_forall hparts
        have hvisit := visit_of_parts hhole (hp _ p.self_mem_phrases).2 hhead
          (hus.imp fun q hq u hu => hu.1)
        have hform : p.sameForm (p.rebuild us) = true := by
          rw [Tree.sameForm_iff, Tree.ctorIdx_rebuild, Tree.scalars_rebuild]
          exact ⟨rfl, sameScalars_self hnan.scalars⟩
        refine ⟨p.rebuild us, hvisit, ?_⟩
        refine (fits_of_compare (demand_of_sameForm hhole hform)).mpr ⟨hform, ?_⟩
        rw [p.parts_eq, (p.rebuild us).parts_eq, Tree.visited_rebuild hus.aligned.symm,
          Tree.unvisited_rebuild]
        refine (hus.imp fun q hq u hu => hu.2).append (.refl fun q hq => ?_)
        -- what walks leave out has no holes, so it fits itself
        have hq' : q ∈ p.parts := p.parts_eq ▸ List.mem_append_right _ hq
        exact (fits_iff_same (hp.unvisited hq)).mpr (Tree.same_refl (hnan.part hq'))

/-- Matching finds every instance: a pattern can be filled with values that suit it, and whatever is
the same as the result is matched, the holes being bound to the same values again. -/
theorem match_of_fill {s : Environment} {c : Category} {p : Tree c} (hp : p.Regular)
    (hnan : p.NaNFree) (h : Suits options s p) :
    ∃ n, fillTree s p = .ok n ∧ ∀ n', n.same n' = true →
      ∃ env, matchTree options p n' = some env ∧
        (∀ k, (env.get? k).isSome = true ↔ k ∈ p.holes) ∧
        ∀ k ∈ p.holes, ∃ v w, env.get? k = some v ∧ s.get? k = some w ∧ v.same w = true := by
  obtain ⟨n, hfill, hfits⟩ : ∃ n, fillTree s p = .ok n ∧ fits options s p n = true :=
    fits_of_visit hp hnan h
  refine ⟨n, hfill, fun n' hn' => ?_⟩
  have hempty : ({} : Environment).Reflects s := fun k v hk => by cases hk
  obtain ⟨env, hmatch, hreflects⟩ := matches_of_fits (fits_of_same hfits hn') hempty
  refine ⟨env, matchTree_eq_some.mpr hmatch, keys_of_match hmatch, fun k hk => ?_⟩
  obtain ⟨v, hv⟩ := Option.isSome_iff_exists.mp ((keys_of_match hmatch k).mpr hk)
  obtain ⟨w, hw, hsame⟩ := hreflects k v hv
  exact ⟨v, w, hv, hw, Bound.same_symm hsame⟩

/-- A loop over a declaration, the body of which is a compound statement. -/
theorem match_of_fill_loop :
    let p : Stmt := .forOf false (.exprHead (.exprHole 1 true)) (.exprHole 2 false)
      (.body (.stmtHole 3 true))
    let s : Environment := ⟨[
      (⟨.expression, 1⟩, .decl (.varDecl .var .nil)),
      (⟨.expression, 2⟩, .expr .this),
      (⟨.statement, 3⟩, .stmt (.blockStmt (.stmts .nil)))]⟩
    Suits {} s p ∧ ∃ n, fillTree s p = .ok n ∧ ∀ n', n.same n' = true →
      ∃ env, matchTree {} p n' = some env ∧
        (∀ k, (env.get? k).isSome = true ↔ k ∈ p.holes) ∧
        ∀ k ∈ p.holes, ∃ v w, env.get? k = some v ∧ s.get? k = some w ∧ v.same w = true := by
  intro p s
  have hholes : p.holes = [⟨.expression, 1⟩, ⟨.expression, 2⟩, ⟨.statement, 3⟩] := rfl
  have hphrases : p.phrases = [⟨_, .forOf false (.exprHead (.exprHole 1 true)) (.exprHole 2 false)
      (.body (.stmtHole 3 true))⟩, ⟨_, .exprHead (.exprHole 1 true)⟩, ⟨_, .exprHole 1 true⟩,
      ⟨_, .exprHole 2 false⟩, ⟨_, .body (.stmtHole 3 true)⟩, ⟨_, .stmtHole 3 true⟩] := rfl
  have honly : HeadsOnly 1 p := by
    refine ⟨fun b h => (nomatch h), fun q hq b hb => ?_⟩
    rw [hphrases] at hq
    simp only [List.mem_cons, List.not_mem_nil, or_false] at hq
    rcases hq with rfl | rfl | rfl | rfl | rfl | rfl
    · have hb : _ ∈ [_, _, _] := hb
      simp only [List.mem_cons, List.not_mem_nil, or_false] at hb
      rcases hb with hb | hb | hb <;> cases hb
    · rfl
    · cases hb
    · cases hb
    · cases List.mem_singleton.mp hb
    · cases hb
  have hsuits : Suits {} s p := by
    refine ⟨fun i hi => ?_, fun i multiLine hi => ?_, fun i hi => ?_, fun k hk v hv => ?_⟩
    · rw [hholes] at hi
      simp only [List.mem_cons, List.not_mem_nil, or_false] at hi
      rcases hi with hi | hi | hi <;> cases hi
    · rw [hphrases] at hi
      simp only [List.mem_cons, List.not_mem_nil, or_false] at hi
      rcases hi with hi | hi | hi | hi | hi | hi <;> cases hi
      exact ⟨_, rfl, fun _ => rfl⟩
    · rw [hholes] at hi
      simp only [List.mem_cons, List.not_mem_nil, or_false] at hi
      rcases hi with hi | hi | hi <;> cases hi
      · exact .inr ⟨⟨_, rfl⟩, honly⟩
      · exact .inl ⟨_, rfl⟩
    · rw [hholes] at hk
      simp only [List.mem_cons, List.not_mem_nil, or_false] at hk
      rcases hk with rfl | rfl | rfl <;> cases hv <;> exact ⟨rfl, by decide⟩
  exact ⟨hsuits, match_of_fill (by decide) (by decide) hsuits⟩

end Pattern

end Unminify
