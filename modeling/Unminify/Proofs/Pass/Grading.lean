import Unminify.Proofs.Pass.Depth
import Unminify.Proofs.Pass.Termination

/-!
# Tables without cascades

A condition on rules, checked by computation, under which a pass ends on every program. A rule
*recedes* in a grading if what its template puts below the root stands less deep than something in its
pattern, and every hole less deep than in the pattern. Whatever the rule matches, the phrases inside
the replacement are then less deep than what they replace, so rules cannot be applied inside
replacements for ever (`ends_of_recedes`).

The built-in rules recede (`recedes_rules`).
-/

namespace Unminify

namespace Grading

/-- Everything in an outline stands less deep than something in another; a hole, than the same hole. -/
def below (marks others : List Mark) : Bool :=
  marks.all fun m => others.any fun m' =>
    m.depth < m'.depth && (m.hole == none || m.hole == m'.hole)

/-- The outline of what stands below the root of a template. A hole is below its own root, since its
value stands in its place. -/
def innards (g : Grading) {c : Category} (t : Tree c) : List Mark :=
  if t.hole?.isSome then g.outline t else t.visited.flatMap (g.outline ·.2)

end Grading

/-- Whether the replacements of a rule are less deep inside than what they replace. -/
def Rule.recedes (g : Grading) (r : Rule) : Bool :=
  match r.pattern, r.replacement with
  | .expr p, .expr t => Grading.below (g.innards t) (g.outline p)
  | .stmt (.sequence inner), .stmt t =>
    !inner.statements.isEmpty && Grading.below ((Pass.members t).flatMap g.outline) (g.outline inner)
  | .stmt p, .stmt t => Grading.below (g.innards t) (g.outline p)
  | _, _ => true

namespace Rule

variable {r : Rule} {options : MatchOptions}

theorem recedes_of_stmt {g : Grading} {p t : Stmt} (hpattern : r.pattern = .stmt p)
    (hne : ∀ inner, p ≠ .sequence inner) (htemplate : r.replacement = .stmt t) :
    r.recedes g = Grading.below (g.innards t) (g.outline p) := by
  rw [recedes, hpattern, htemplate]
  cases p with
  | sequence inner => exact absurd rfl (hne inner)
  | _ => rfl

/-- A rule that recedes does not span an empty list. -/
theorem window?_of_recedes {g : Grading} (h : r.recedes g = true) : r.window? ≠ some 0 := by
  intro hwindow
  unfold window? at hwindow
  split at hwindow
  · rename_i inner hpattern
    have hagree := r.agree
    unfold recedes at h
    rw [hpattern] at h hagree
    cases htemplate : r.replacement with
    | expr t => rw [htemplate] at hagree; cases hagree
    | stmt t =>
      rw [htemplate] at h
      replace h := (Bool.and_eq_true_iff.mp h).1
      rw [List.length_eq_zero_iff.mp (Option.some.inj hwindow)] at h
      cases h
  · cases hwindow

/-! ## What rules have matched -/

theorem applyToExpr?_eq_some {e : Expr} {x : Except FillError Expr}
    (h : r.applyToExpr? options e = some x) :
    ∃ p t env, r.pattern = .expr p ∧ r.replacement = .expr t ∧
      Pattern.Matches options p e {} env ∧ Pattern.fillTree env t = x := by
  unfold applyToExpr? at h
  split at h
  · rename_i p t hp ht
    obtain ⟨env, hmatch, hfill⟩ := Option.bind_eq_some_iff.mp h
    exact ⟨p, t, env, hp, ht, Pattern.matchTree_eq_some.mp hmatch, Option.some.inj hfill⟩
  · cases h

theorem applyToStmt?_eq_some {s : Stmt} {x : Except FillError Stmt}
    (h : r.applyToStmt? options s = some x) :
    ∃ p t env, r.pattern = .stmt p ∧ (∀ inner, p ≠ .sequence inner) ∧ r.replacement = .stmt t ∧
      Pattern.Matches options p s {} env ∧ Pattern.fillTree env t = x := by
  unfold applyToStmt? at h
  split at h
  · cases h
  · rename_i p t hne hp ht
    obtain ⟨env, hmatch, hfill⟩ := Option.bind_eq_some_iff.mp h
    refine ⟨p, t, env, hp, ?_, ht, Pattern.matchTree_eq_some.mp hmatch, Option.some.inj hfill⟩
    rintro inner rfl
    exact hne inner rfl
  · cases h

theorem applyToList?_eq_some {ss : List Stmt} {x : Except FillError Stmt}
    (h : r.applyToList? options ss = some x) :
    ∃ inner t env, r.pattern = .stmt (.sequence inner) ∧ r.replacement = .stmt t ∧
      Pattern.Matches options (Tree.ofList inner.statements) (Tree.ofList ss) {} env ∧
      Pattern.fillTree env t = x := by
  unfold applyToList? at h
  split at h
  · rename_i inner t hp ht
    obtain ⟨env, hmatch, hfill⟩ := Option.bind_eq_some_iff.mp h
    exact ⟨inner, t, env, hp, ht, Pattern.matchTree_eq_some.mp hmatch, Option.some.inj hfill⟩
  · cases h

end Rule

namespace Pass

theorem mem_of_firstMatch? {α : Type} {table : RuleTable}
    {tryRule : Rule → Option (Except FillError α)} {r : Rule} {x : Except FillError α}
    (h : firstMatch? table tryRule = some (r, x)) : r ∈ table.rules ∧ tryRule r = some x := by
  obtain ⟨r', hr', hx⟩ := List.exists_of_findSome?_eq_some h
  obtain ⟨x', hx', heq⟩ := Option.map_eq_some_iff.mp hx
  cases heq
  exact ⟨hr', hx'⟩

theorem mem_of_windowAt? {table : RuleTable} {ss : List Stmt} {m : WindowMatch}
    (h : windowAt? table ss = some m) :
    m.rule ∈ table.rules ∧ m.rule.window? = some m.length ∧
      m.rule.applyToList? table.options (ss.take m.length) = some m.outcome := by
  obtain ⟨r, hr, hm⟩ := List.exists_of_findSome?_eq_some h
  simp only [Option.bind_eq_bind, Option.bind_eq_some_iff] at hm
  obtain ⟨length, hlength, hm⟩ := hm
  split at hm
  · cases hm
  · obtain ⟨outcome, houtcome, hm⟩ := Option.bind_eq_some_iff.mp hm
    cases hm
    exact ⟨hr, hlength, houtcome⟩

end Pass

namespace Grading

open Pass Pattern

variable {g : Grading} {limit : Nat} {c : Category} {env : Environment} {options : MatchOptions}

/-! ## What a rule leaves of the depth -/

theorem bounded_of_below {marks others : List Mark} (h : below marks others = true)
    (hothers : ∀ m ∈ others, g.Bounded env limit m) : ∀ m ∈ marks, g.Bounded env (limit - 1) m := by
  intro m hm
  obtain ⟨m', hm', hlt, hhole⟩ : ∃ m' ∈ others, m.depth < m'.depth ∧ (m.hole = none ∨ m.hole = m'.hole) := by
    simpa only [below, List.all_eq_true, List.any_eq_true, Bool.and_eq_true, decide_eq_true_eq,
      Bool.or_eq_true, beq_iff_eq] using List.all_eq_true.mp h m hm
  have hbounded := hothers m' hm'
  have hdepth := hbounded.depth_lt
  unfold Bounded
  split
  · omega
  · rename_i k hk
    rw [hk] at hhole
    rw [Bounded, ← hhole.resolve_left (Option.some_ne_none k)] at hbounded
    obtain ⟨v, hv, hsits⟩ := hbounded
    exact ⟨v, hv, hsits.mono (by omega)⟩

theorem bounded_outline {p n : Tree c} (h : Matches options p n {} env) (hn : g.Sits limit 0 n) :
    ∀ m ∈ g.outline p, g.Bounded env limit m := by
  intro m hm
  have hbounded := bounded_of_matches h hn m hm
  rwa [Mark.lower, Nat.zero_add] at hbounded

theorem sits_of_fill {t u : Tree c} (h : fillTree env t = .ok u)
    (ht : ∀ m ∈ g.outline t, g.Bounded env limit m) : g.Sits limit 0 u := by
  refine sits_of_visit h fun m hm => ?_
  rw [Mark.lower, Nat.zero_add]
  exact ht m hm

/-- What stands inside a replacement is less deep than what was matched. -/
theorem sits_visited_of_fill {p n t u : Tree c} (hmatch : Matches options p n {} env)
    (hfill : fillTree env t = .ok u) (hbelow : below (g.innards t) (g.outline p) = true)
    (hn : g.Sits limit 0 n) : ∀ q ∈ u.visited, g.Sits (limit - 1) 0 q.2 := by
  have hinnards := bounded_of_below hbelow (bounded_outline hmatch hn)
  cases hhole : t.hole? with
  | some k =>
    rw [innards, hhole, Option.isSome_some, if_pos rfl] at hinnards
    exact fun q hq => (sits_of_fill hfill hinnards).visited hq
  | none =>
    rw [innards, hhole, Option.isSome_none, if_neg Bool.false_ne_true, List.forall_mem_flatMap]
      at hinnards
    have hparts : ∀ q ∈ t.visited, ∀ m ∈ g.outline q.2, g.Bounded env (limit - 1) (m.lower 0) := by
      intro q hq m hm
      rw [Mark.lower, Nat.zero_add]
      exact hinnards q hq m hm
    exact (sits_visited_of_visit hhole hfill hparts fun q hq v hv => sits_of_visit hv (hparts q hq)).2

theorem sits_of_inside {t : Tree c} {q : Phrase} {depth : Nat} (h : Inside t q)
    (ht : ∀ p ∈ t.visited, g.Sits limit depth p.2) : g.Sits limit depth q.2 := by
  induction h with
  | part hq _ => exact ht _ hq
  | within hp _ _ ih => exact ih fun r hr => (ht _ hp).visited hr

/-- Names have no weight. -/
theorem outline_named (isAsync isGenerator : Bool) (name name' : String) (id id' : Option Nat)
    (params : Tree (.list .binder)) (inner : Block) :
    g.outline (.function isAsync isGenerator (.some (.ident name id)) params inner) =
      g.outline (.function isAsync isGenerator (.some (.ident name' id')) params inner) := by
  have hident : g.outline (Tree.ident name id) = g.outline (Tree.ident name' id') :=
    outline_congr rfl rfl .nil
  have hname : g.outline (Tree.some (.ident name id)) = g.outline (Tree.some (.ident name' id')) :=
    outline_congr rfl rfl (.cons hident .nil)
  exact outline_congr rfl rfl (.cons hname (.cons rfl (.cons rfl .nil)))

theorem sits_visited_of_named {s s' : Stmt} (h : Named s s')
    (hs : ∀ q ∈ s.visited, g.Sits limit 0 q.2) : ∀ q ∈ s'.visited, g.Sits limit 0 q.2 := by
  cases h with
  | same => exact hs
  | renamed isAsync isGenerator proposed name id id' params inner =>
    intro q hq
    obtain rfl := List.mem_singleton.mp hq
    have hfunction := hs ⟨_, .function isAsync isGenerator (.some (.ident proposed id)) params inner⟩
      List.mem_cons_self
    unfold Sits at hfunction ⊢
    rw [outline_named _ _ _ name _ id'] at hfunction
    exact hfunction

/-! ### Statement lists -/

/-- The weight of a statement list. -/
def list (g : Grading) : Nat := g.of (Tree.stmts .nil)

theorem sits_ofList {depth : Nat} {ts : List (Tree c)} :
    g.Sits limit depth (Tree.ofList ts) ↔ depth < limit ∧ ∀ t ∈ ts, g.Sits limit depth t := by
  induction ts with
  | nil =>
    refine ⟨fun h => ⟨?_, nofun⟩, fun h => sits_nil h.1⟩
    exact Nat.lt_of_le_of_lt (Nat.le_add_right _ _) (sits_iff.mp h).1.2
  | cons t ts ih =>
    have hof : g.of (Tree.ofList (t :: ts)) = 0 := g.inPlace _ rfl
    rw [sits_iff, hof, List.forall_mem_cons]
    constructor
    · rintro ⟨⟨-, hdepth⟩, hvisited⟩
      have hts := ih.mp (hvisited ⟨_, Tree.ofList ts⟩ (List.mem_cons_of_mem _ List.mem_cons_self))
      exact ⟨hdepth, hvisited ⟨_, t⟩ List.mem_cons_self, hts.2⟩
    · rintro ⟨hdepth, ht, hts⟩
      refine ⟨⟨rfl, hdepth⟩, fun p hp => ?_⟩
      rcases List.mem_cons.mp hp with rfl | hp
      · exact ht
      · obtain rfl := List.mem_singleton.mp hp
        exact ih.mpr ⟨hdepth, hts⟩

theorem sits_block {depth : Nat} {b : Block} :
    g.Sits limit depth b ↔ depth + g.list < limit ∧ ∀ s ∈ b.statements, g.Sits limit (depth + g.list) s := by
  cases b with
  | stmts items =>
    rw [sits_iff]
    constructor
    · rintro ⟨⟨-, hdepth⟩, hvisited⟩
      have hitems := hvisited ⟨_, items⟩ List.mem_cons_self
      rw [← Tree.ofList_toList items] at hitems
      exact ⟨hdepth, (sits_ofList.mp hitems).2⟩
    · rintro ⟨hdepth, hitems⟩
      refine ⟨⟨rfl, hdepth⟩, fun p hp => ?_⟩
      obtain rfl := List.mem_singleton.mp hp
      rw [← Tree.ofList_toList items]
      exact sits_ofList.mpr ⟨hdepth, hitems⟩

/-- The members of a filled list are the members of the template, filled. -/
theorem exists_of_fill_ofList {ts : List (Tree c)} {u : Tree (.list c)} {fuel : Nat}
    (h : (Tree.ofList ts).visit (fillHook env fuel) = .ok u) {v : Tree c} (hv : v ∈ u.toList) :
    ∃ t ∈ ts, t.visit (fillHook env fuel) = .ok v := by
  induction ts generalizing u with
  | nil =>
    have hu : (Tree.ofList ([] : List (Tree c))).visit (fillHook env fuel) = .ok .nil :=
      fillHook_eq_walk rfl rfl nofun
    cases hu.symm.trans h
    cases hv
  | cons t ts ih =>
    have hcons : (Tree.ofList (t :: ts)).visit (fillHook env fuel) =
        (t.visit (fillHook env fuel) >>= fun v =>
          (Tree.ofList ts).visit (fillHook env fuel) >>= fun vs => pure (.cons v vs)) :=
      fillHook_eq_walk rfl rfl nofun
    obtain ⟨w, hw, hrest⟩ := exists_of_bind_eq_ok (hcons.symm.trans h)
    obtain ⟨ws, hws, hu⟩ := exists_of_bind_eq_ok hrest
    cases hu
    rcases List.mem_cons.mp hv with rfl | hv
    · exact ⟨t, List.mem_cons_self, hw⟩
    · obtain ⟨t', ht', hfill⟩ := ih hws hv
      exact ⟨t', List.mem_cons_of_mem _ ht', hfill⟩

theorem sits_members {s s' : Stmt} (h : g.Sits limit 0 s) (hs' : s' ∈ members s) :
    g.Sits limit 0 s' := by
  cases s with
  | sequence inner =>
    have hinner := h.visited (p := ⟨_, inner⟩) List.mem_cons_self
    exact ((sits_block.mp hinner).2 s' hs').mono (by omega)
  | _ =>
    obtain rfl := List.mem_singleton.mp hs'
    exact h

/-- The members of a filled template, if its own members are filled to trees above a limit. -/
theorem sits_members_of_fill {t s s' : Stmt} (h : fillTree env t = .ok s)
    (ht : ∀ t' ∈ members t, ∀ m ∈ g.outline t', g.Bounded env limit m) (hs' : s' ∈ members s) :
    g.Sits limit 0 s' := by
  cases t with
  | sequence inner =>
    cases inner with
    | stmts items =>
      have hsequence : fillTree env (.sequence (.stmts items)) =
          ((Tree.stmts items).visit (fillHook env env.size) >>= fun b => pure (.sequence b)) :=
        fillHook_eq_walk rfl rfl nofun
      have hstmts : (Tree.stmts items).visit (fillHook env env.size) =
          (items.visit (fillHook env env.size) >>= fun vs => pure (.stmts vs)) :=
        fillHook_eq_walk rfl rfl nofun
      obtain ⟨b, hb, hs⟩ := exists_of_bind_eq_ok (hsequence.symm.trans h)
      obtain ⟨vs, hvs, hb⟩ := exists_of_bind_eq_ok (hstmts.symm.trans hb)
      cases hs
      cases hb
      rw [← Tree.ofList_toList items] at hvs
      obtain ⟨t', ht', hfill⟩ := exists_of_fill_ofList hvs hs'
      exact sits_of_fill hfill (ht t' ht')
  | _ => exact sits_members (sits_of_fill h (ht _ List.mem_cons_self)) hs'

/-- What a rule for statement lists puts in is less deep than the list. -/
theorem sits_member_of_fill {inner : Block} {ss : List Stmt} {t s s' : Stmt}
    (hmatch : Matches options (Tree.ofList inner.statements) (Tree.ofList ss) {} env)
    (hfill : fillTree env t = .ok s)
    (hbelow : below ((members t).flatMap g.outline) (g.outline inner) = true)
    (hlist : g.list < limit) (hss : ∀ s ∈ ss, g.Sits limit g.list s) (hs' : s' ∈ members s) :
    g.Sits (limit - 1) 0 s' := by
  have hitems := bounded_of_matches hmatch (sits_ofList.mpr ⟨hlist, hss⟩)
  have hinner : ∀ m ∈ g.outline inner, g.Bounded env limit m := by
    cases inner with
    | stmts items =>
      rw [outline_eq, List.forall_mem_cons, List.forall_mem_flatMap]
      refine ⟨hlist, fun p hp => ?_⟩
      obtain rfl := List.mem_singleton.mp hp
      rw [List.forall_mem_map]
      simp only [Tree.statements, Tree.ofList_toList] at hitems
      exact hitems
  have hmembers := bounded_of_below hbelow hinner
  rw [List.forall_mem_flatMap] at hmembers
  exact sits_members_of_fill hfill hmembers hs'

/-! ## Where a walk leads -/

variable {table : RuleTable}

/-- A split comma expression stays above the limit. -/
theorem sits_split {parts : Tree (.list .expr)} (h : g.Sits limit 0 (Tree.exprStmt (.comma parts))) :
    g.Sits limit 0 (Tree.blockOf (parts.toList.map .exprStmt)) := by
  obtain ⟨w, hw⟩ : ∃ w, ∀ e : Expr, g.of (Tree.exprStmt e) = w := ⟨g.of (.exprStmt .this), fun _ => rfl⟩
  have hcomma : g.Sits limit (0 + g.of (Tree.exprStmt (.comma parts))) (.comma parts) :=
    (sits_iff.mp h).2 ⟨_, .comma parts⟩ List.mem_cons_self
  have hparts : g.Sits limit (0 + w + g.of (Tree.comma parts)) parts :=
    (sits_iff.mp (hw _ ▸ hcomma)).2 ⟨_, parts⟩ List.mem_cons_self
  have hweight : g.list ≤ g.of (Tree.comma parts) := g.comma .nil parts
  obtain ⟨hroot, hitems⟩ : _ ∧ ∀ e ∈ parts.toList, g.Sits limit (0 + w + g.of (Tree.comma parts)) e :=
    sits_ofList.mp ((Tree.ofList_toList parts).symm ▸ hparts)
  refine sits_block.mpr ⟨by omega, fun s hs => ?_⟩
  rw [Tree.statements_blockOf] at hs
  obtain ⟨e, he, rfl⟩ := List.mem_map.mp hs
  refine sits_iff.mpr ⟨⟨rfl, by rw [hw]; omega⟩, fun p hp => ?_⟩
  obtain rfl := List.mem_singleton.mp hp
  rw [hw]
  exact (hitems e he).mono (by omega)

/-- A walk leads to phrases that are no deeper, and after a rule to phrases that are less deep. -/
theorem sits_of_leads (hrules : ∀ r ∈ table.rules, r.recedes g = true) {applied : Bool} {p q : Phrase}
    (h : Leads table applied p q) (hp : g.Sits limit 0 p.2) :
    g.Sits (cond applied (limit - 1) limit) 0 q.2 := by
  cases h with
  | inward hq => exact sits_of_inside hq fun p hp' => hp.visited hp'
  | split hq =>
    refine sits_of_inside hq fun p hp' => ?_
    obtain rfl := List.mem_singleton.mp hp'
    exact sits_split hp
  | expr hfirst _ hq =>
    obtain ⟨hr, happly⟩ := mem_of_firstMatch? hfirst
    obtain ⟨p, t, env, hpattern, htemplate, hmatch, hfill⟩ := Rule.applyToExpr?_eq_some happly
    have hbelow := hrules _ hr
    rw [Rule.recedes, hpattern, htemplate] at hbelow
    exact sits_of_inside hq (sits_visited_of_fill hmatch hfill hbelow hp)
  | stmt hfirst hnamed _ hq =>
    obtain ⟨hr, happly⟩ := mem_of_firstMatch? hfirst
    obtain ⟨p, t, env, hpattern, hne, htemplate, hmatch, hfill⟩ := Rule.applyToStmt?_eq_some happly
    have hbelow := hrules _ hr
    rw [Rule.recedes_of_stmt hpattern hne htemplate] at hbelow
    exact sits_of_inside hq
      (sits_visited_of_named hnamed (sits_visited_of_fill hmatch hfill hbelow hp))
  | window hsuffix hm houtcome hs' =>
    obtain ⟨hr, -, happly⟩ := mem_of_windowAt? hm
    rw [houtcome] at happly
    obtain ⟨inner, t, env, hpattern, htemplate, hmatch, hfill⟩ := Rule.applyToList?_eq_some happly
    have hbelow := hrules _ hr
    rw [Rule.recedes, hpattern, htemplate] at hbelow
    obtain ⟨hlist, hss⟩ := sits_block.mp hp
    rw [Nat.zero_add] at hlist hss
    refine sits_member_of_fill hmatch hfill (Bool.and_eq_true_iff.mp hbelow).2 hlist ?_ hs'
    exact fun s hs => hss s (hsuffix.mem (List.mem_of_mem_take hs))
  | insertion _ hm hlength _ _ =>
    obtain ⟨hr, hwindow, -⟩ := mem_of_windowAt? hm
    exact absurd (hwindow.trans (congrArg some hlength)) (Rule.window?_of_recedes (hrules _ hr))

/-- A table of rules that recede has no cascades. -/
theorem not_cascade (hrules : ∀ r ∈ table.rules, r.recedes g = true) {first : Phrase}
    (hfirst : first.2.holes = []) : IsEmpty (Cascade table first) := by
  refine ⟨fun cascade => ?_⟩
  -- every application takes one from the limit
  have hnone : ∀ limit n, ¬g.Sits limit 0 (cascade.phrase n).2 := by
    intro limit
    induction limit with
    | zero => exact fun n h => absurd (sits_iff.mp h).1.2 (Nat.not_lt_zero _)
    | succ limit ih =>
      intro n hn
      obtain ⟨m, hm, happlied⟩ := cascade.endless n
      have hsits : g.Sits (limit + 1) 0 (cascade.phrase m).2 := by
        clear happlied
        induction hm with
        | refl => exact hn
        | step _ ih =>
          refine (sits_of_leads hrules (cascade.leads _) ih).mono ?_
          cases cascade.applied _ <;> simp only [cond_true, cond_false] <;> omega
      have hnext := sits_of_leads hrules (cascade.leads m) hsits
      rw [happlied] at hnext
      exact ih (m + 1) hnext
  obtain ⟨limit, hlimit⟩ := exists_sits (g := g) hfirst
  rw [← cascade.start] at hlimit
  exact hnone limit 0 hlimit

end Grading

namespace RuleTable

open Pass

/-- With rules that recede, a pass ends. -/
theorem ends_of_recedes {table : RuleTable} {g : Grading}
    (hrules : ∀ r ∈ table.rules, r.recedes g = true) {p : Program} (hp : p.body.holes = []) :
    table.Ends p :=
  (ends_or_cascades table p).resolve_right fun ⟨h⟩ => (Grading.not_cascade hrules hp).false h

end RuleTable

/-! ## The built-in rules -/

namespace Builtin

/-- The number of the constructor of a phrase. -/
def form {c : Category} (t : Tree c) : Nat := t.ctorIdx

/-- Weights for the forms that the built-in rules are about. -/
def weight (i : Nat) : Nat :=
  let e : Expr := .this
  let b : Tree .body := .body .emptyStmt
  if [form (.binary .and e e), form (.conditional e e e)].contains i then 2
  else if [form (.unary .not e), form (.ifStmt e b .none), form (.whileStmt e b), form (.doWhile e b),
      form (.forStmt .none .none .none b), form (.forIn (.exprHead e) e b),
      form (.forOf false (.exprHead e) e b),
      form (.functionStmt (.function false false .none .nil (.stmts .nil)))].contains i then 1
  else 0

/-- A grading in which the built-in rules recede. -/
def grading : Grading where
  weight := weight
  inPlace t h := by cases t <;> first | rfl | cases h
  hole t h := by cases t <;> first | rfl | cases h
  comma _ _ := Nat.le_refl 0

/-- The built-in rules recede. -/
theorem recedes_rules : ∀ r ∈ all.map rule ++ [interopRule], r.recedes grading = true := by
  decide +kernel

end Builtin

namespace RuleTable

open Pass

/-- `a && (b, !0);` -/
def guardedUse : Program where
  body := Tree.blockOf [.exprStmt (.binary .and (.identExpr (.ident "a" (some 3)))
    (.comma (.ofList [.identExpr (.ident "b" (some 9)), .unary .not (.literal (.number ⟨0⟩))])))]

end RuleTable

end Unminify
