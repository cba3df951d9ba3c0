import Unminify.Pass.Run
import Unminify.Proofs.Rule.Silhouette
import Unminify.Proofs.Syntax.Reached

/-!
# What a pass does at one phrase

The steps of a pass with some of the built-in rules, before the walk goes on into the result: a
statement becomes `simplified`, an expression `spelled`, and a statement list stays as it is. If the
rule for interop helpers is in the table, a function may become a helper instead, and this is the only
step that can stop the pass.

`Yields` is what is said of a pass: if it has not stopped, it either gives a result with a property
and goes on, or stops for a reason that may be given. What is true of the state while it goes on and
what it may stop for is its `Regime`. Nothing is asked for `Regime.loose`, where the scope graph stays as
it is without the rule for helpers, and a function without a binding may stop the pass with it.
-/

namespace Unminify

namespace Builtin

variable (bs : List Builtin)

/-- The first rule that accepts a statement. -/
def pick (s : Stmt) : Option Builtin := bs.find? (·.accepts s.silhouette)

/-- A statement after the first rule that accepts it. -/
def reshaped (s : Stmt) : Stmt :=
  match pick bs s with
  | some b => b.recast s
  | none => s

/-- A statement after the step that a pass makes there: a comma expression is split. -/
def simplified : Stmt → Stmt
  | .exprStmt (.comma parts) => .sequence (Tree.blockOf (parts.toList.map .exprStmt))
  | s => reshaped bs s

/-- An expression after the first rule that recognizes it. -/
def spelled (e : Expr) : Expr := (bs.findSome? (·.spelling? e)).getD e

end Builtin

/-- A table that has some of the built-in rules, in order, and perhaps the one for interop helpers. -/
def RuleTable.Offers (table : RuleTable) (bs : List Builtin) (helpers : Bool) : Prop :=
  table.rules = bs.map Builtin.rule ++ cond helpers [Builtin.interopRule] []

namespace Pass

/-! ## Passes that may stop -/

section

variable {α β : Type}

/-- Once stopped, a pass stays stopped for the same reason. -/
def Keeps (x : Pass α) : Prop := ∀ s e, s.error = some e → (x.run s).2.error = some e

/-- What is true of the state while a pass goes on, and what the pass may stop for. -/
structure Regime where
  Going : State → Prop
  Stops : PassError → Prop
  running : ∀ {s : State}, Going s → s.error = none
  counting : ∀ {s : State} (g : Stats → Stats), Going s → Going { s with stats := g s.stats }

/-- Without helpers the scope graph is the first one, and nothing stops a pass with built-in rules. With
them, a function that has no binding may stop it. -/
def Regime.loose (helpers : Bool) (first : ScopeGraph) : Regime where
  Going s := s.error = none ∧ (helpers = false → s.graph = first)
  Stops e := helpers = true ∧ ∃ name, e = .undeclared name
  running := And.left
  counting _ := id

/-- A pass that has not stopped gives a result with `Q` and goes on, or stops. -/
def Yields (r : Regime) (x : Pass α) (Q : α → Prop) : Prop :=
  ∀ s, r.Going s → (r.Going (x.run s).2 ∧ Q (x.run s).1) ∨
    ∃ e, (x.run s).2.error = some e ∧ r.Stops e

variable {r : Regime} {x : Pass α} {f : α → Pass β} {P Q : α → Prop} {S : β → Prop}

theorem keeps_pure (a : α) : Keeps (pure a : Pass α) := fun _ _ h => h

theorem Keeps.bind (hx : Keeps x) (hf : ∀ a, Keeps (f a)) : Keeps (x >>= f) :=
  fun s e h => hf _ _ e (hx s e h)

theorem keeps_count (g : Stats → Stats) : Keeps (count g) := fun _ _ h => h

theorem keeps_fail (e : PassError) : Keeps (fail e) := by
  intro s e' h
  show (s.error <|> some e) = some e'
  rw [h]
  rfl

/-- What asks first whether the pass has stopped changes nothing once it has. -/
theorem keeps_unlessStopped (a : α) (x : Pass α) :
    Keeps (do if ← stopped then return a else x) := by
  intro s e h
  show ((if s.error.isSome = true then (pure a : Pass α) else x).run s).2.error = some e
  rw [h]
  exact h

theorem yields_pure {a : α} (h : Q a) : Yields r (pure a) Q := fun _ hs => .inl ⟨hs, h⟩

theorem Yields.bind (hx : Yields r x P) (hf : ∀ a, P a → Yields r (f a) S)
    (hkeeps : ∀ a, Keeps (f a)) : Yields r (x >>= f) S := by
  intro s hs
  rcases hx s hs with ⟨hgoing, ha⟩ | ⟨e, he, hE⟩
  · exact hf _ ha _ hgoing
  · exact .inr ⟨e, hkeeps _ _ e he, hE⟩

theorem Yields.imp (hx : Yields r x P) (h : ∀ a, P a → Q a) : Yields r x Q := by
  intro s hs
  rcases hx s hs with ⟨hgoing, ha⟩ | hstop
  · exact .inl ⟨hgoing, h _ ha⟩
  · exact .inr hstop

theorem Yields.unlessStopped (hx : Yields r x Q) (a : α) :
    Yields r (do if ← stopped then return a else x) Q := by
  intro s hs
  have hrun : (do if ← stopped then return a else x : Pass α).run s = x.run s := by
    show (if s.error.isSome = true then (pure a : Pass α) else x).run s = x.run s
    rw [r.running hs]
    rfl
  rw [hrun]
  exact hx s hs

theorem yields_count (g : Stats → Stats) : Yields r (count g) fun _ => True :=
  fun _ hs => .inl ⟨r.counting g hs, trivial⟩

end

variable {table : RuleTable} {bs : List Builtin} {helpers : Bool} {r : Regime}

/-! ## Statement lists -/

/-- No built-in rule spans several statements. -/
theorem windowAt?_eq_none (htable : table.Offers bs helpers) (ss : List Stmt) :
    windowAt? table ss = none := by
  rw [windowAt?, htable, List.findSome?_eq_none_iff]
  intro r hr
  have hwindow : r.window? = none := by
    rcases List.mem_append.mp hr with hr | hr
    · obtain ⟨b, -, rfl⟩ := List.mem_map.mp hr
      cases b <;> rfl
    · cases helpers with
      | true => rw [List.mem_singleton.mp hr]; rfl
      | false => cases hr
  rw [hwindow]
  rfl

theorem sweep_eq_pure (htable : table.Offers bs helpers) (ss : List Stmt) :
    sweep table ss = pure ss := by
  induction ss with
  | nil => rw [sweep]
  | cons s ss ih =>
    rw [sweep, windowAt?_eq_none htable]
    simp only [ih, pure_bind]

/-! ## Statements -/

theorem findSome?_eq_map_find? {α β : Type} (p : α → Bool) (g : α → β) (l : List α) :
    l.findSome? (fun a => if p a = true then some (g a) else none) = (l.find? p).map g := by
  induction l with
  | nil => rfl
  | cons a l ih =>
    rw [List.findSome?_cons, List.find?_cons]
    cases p a with
    | true => rfl
    | false => exact ih

/-- The first rule that matches a statement is the first that accepts its silhouette, or the rule for
interop helpers. -/
theorem firstMatch?_stmt (htable : table.Offers bs helpers) {s : Stmt} (hs : s.holes = []) :
    firstMatch? table (·.applyToStmt? table.options s) =
      ((Builtin.pick bs s).map fun b => (b.rule, .ok (b.recast s))).or
        ((cond helpers [Builtin.interopRule] []).findSome? fun r =>
          (r.applyToStmt? table.options s).map (r, ·)) := by
  rw [firstMatch?, htable, List.findSome?_append, List.findSome?_map, Builtin.pick,
    ← findSome?_eq_map_find?]
  congr 2
  funext b
  rw [Function.comp_apply, Builtin.applyToStmt?_rule _ b hs]
  cases b.accepts s.silhouette <;> rfl

theorem accepts_of_pick {s : Stmt} {b : Builtin} (h : Builtin.pick bs s = some b) :
    b.accepts s.silhouette = true := by
  have hb := List.find?_some h
  exact hb

/-- A function is accepted by no rule but the one for interop helpers. -/
theorem pick_functionStmt (fn : Tree .function) : Builtin.pick bs (.functionStmt fn) = none := by
  rw [Builtin.pick, List.find?_eq_none]
  intro b _
  cases b <;> exact Bool.false_ne_true

theorem disambiguate_of_ne {s : Stmt} (hs : ∀ fn, s ≠ .functionStmt fn) (new : Stmt) :
    disambiguate s new = pure (some new) := by
  cases s with
  | functionStmt fn => exact absurd rfl (hs fn)
  | _ => rfl

theorem applyToStmt_of_pick (htable : table.Offers bs helpers) {s : Stmt} (hs : s.holes = [])
    {b : Builtin} (hb : Builtin.pick bs s = some b) :
    applyToStmt table s =
      if (b.recast s).same s = true then pure s else (do record b.rule; return b.recast s) := by
  have hne : ∀ fn, s ≠ .functionStmt fn := by
    rintro fn rfl
    rw [pick_functionStmt] at hb
    cases hb
  rw [applyToStmt, firstMatch?_stmt htable hs, hb]
  simp only [Option.map_some, Option.some_or, disambiguate_of_ne hne, pure_bind]

/-- Where no rule accepts a statement, at most a function changes. -/
theorem applyToStmt_of_pick_none (htable : table.Offers bs helpers) {s : Stmt} (hs : s.holes = [])
    (hb : Builtin.pick bs s = none)
    (hhelper : helpers = false ∨ Builtin.interopRule.applyToStmt? table.options s = none) :
    applyToStmt table s = pure s := by
  have hfirst : firstMatch? table (·.applyToStmt? table.options s) = none := by
    rw [firstMatch?_stmt htable hs, hb]
    rcases hhelper with rfl | hnone
    · rfl
    · cases helpers with
      | false => rfl
      | true => rw [cond_true, List.findSome?_singleton, hnone]; rfl
  rw [applyToStmt, hfirst]

theorem disambiguate_interopHelper (isAsync isGenerator : Bool) (declared param : Name)
    (params : Tree (.list .binder)) (inner : Block) (proposed : String) :
    disambiguate (.functionStmt (.function isAsync isGenerator (.some declared) params inner))
        (Builtin.interopHelper (.ident proposed none) param) = do
      let s ← get
      match declared.nameId?.bind fun id => (s.graph.bindingAt id).map (id, ·) with
      | none =>
        fail (.undeclared (declared.nameText?.getD ""))
        return none
      | some (id, b) =>
        let name := s.graph.freeName b proposed
        if !s.graph.isNamed name b then
          modify fun s => { s with graph := s.graph.rename b name }
          count fun s => { s with renamed := s.renamed + 1 }
        return some (Builtin.interopHelper (.ident name (some id)) param) := rfl

/-- A pass finds a name for the helper that it makes of a function, or it stops. -/
def Names (r : Regime) (fn : Tree .function) (Q : String → Option Nat → Prop) : Prop :=
  Yields r (disambiguate (.functionStmt fn)
      (Builtin.interopHelper (.ident "_interopRequireDefault" none) (.ident "obj" none)))
    fun new => ∃ name id, new = some (Builtin.interopHelper (.ident name id) (.ident "obj" none)) ∧ Q name id

/-- A helper is given a name, unless no binding is known for the function. -/
theorem names_loose (first : ScopeGraph) (fn : Tree .function) :
    Names (.loose true first) fn fun _ _ => True := by
  cases fn with
  | function isAsync isGenerator name params inner =>
    cases name with
    | none => exact yields_pure ⟨_, none, rfl, trivial⟩
    | some declared =>
      intro s hs
      rw [disambiguate_interopHelper, StateT.run_bind, StateT.run_get]
      simp only [pure_bind]
      split
      · refine .inr ⟨.undeclared (declared.nameText?.getD ""), ?_, rfl, _, rfl⟩
        show (s.error <|> _) = _
        rw [hs.1]
        rfl
      · rename_i id b _
        refine .inl ⟨⟨?_, nofun⟩, s.graph.freeName b "_interopRequireDefault", some id, ?_, trivial⟩
        · split <;> exact hs.1
        · split <;> rfl

/-- Where only the rule for interop helpers matches a function, it is given the name of a helper. -/
theorem applyToStmt_interopRule (htable : table.Offers bs true) {s : Stmt} (hs : s.holes = [])
    (hb : Builtin.pick bs s = none)
    (hsome : Builtin.interopRule.applyToStmt? table.options s =
      some (.ok (Builtin.interopHelper (.ident "_interopRequireDefault" none) (.ident "obj" none)))) :
    applyToStmt table s =
      disambiguate s (Builtin.interopHelper (.ident "_interopRequireDefault" none) (.ident "obj" none)) >>=
        fun
          | none => return s
          | some replacement =>
            if replacement.same s then return s
            else do
              record Builtin.interopRule
              return replacement := by
  rw [applyToStmt, firstMatch?_stmt htable hs, hb, cond_true, List.findSome?_singleton, hsome]
  rfl

theorem yields_applyToStmt_interopRule (htable : table.Offers bs true) {fn : Tree .function}
    {Q : String → Option Nat → Prop} (hs : (Tree.functionStmt fn).holes = [])
    (hb : Builtin.pick bs (.functionStmt fn) = none)
    (hsome : Builtin.interopRule.applyToStmt? table.options (.functionStmt fn) =
      some (.ok (Builtin.interopHelper (.ident "_interopRequireDefault" none) (.ident "obj" none))))
    (hnames : Names r fn Q) :
    Yields r (applyToStmt table (.functionStmt fn)) fun s' => s' = .functionStmt fn ∨
      ∃ name id, Q name id ∧ s' = Builtin.interopHelper (.ident name id) (.ident "obj" none) := by
  rw [applyToStmt_interopRule htable hs hb hsome]
  refine hnames.bind ?_ fun new => ?_
  · rintro _ ⟨name, id, rfl, hname⟩
    simp only
    split
    · exact yields_pure (.inl rfl)
    · refine (yields_count _).bind (fun _ _ => yields_pure ?_) fun _ => keeps_pure _
      exact .inr ⟨name, id, hname, rfl⟩
  · cases new with
    | none => exact keeps_pure _
    | some new =>
      simp only
      split
      · exact keeps_pure _
      · exact (keeps_count _).bind fun _ => keeps_pure _

/-! ### What stays the same -/

theorem braced_eq_of_same {b : Tree .body} (h : b.braced.same b = true) : b.braced = b := by
  cases b with
  | body s => cases s <;> first | rfl | exact absurd h Bool.false_ne_true

/-- Of the rules for `if`, one puts braces around the other branch. -/
theorem recast_ifStmt_some (b : Builtin) (test : Expr) (consequent alternate : Tree .body) :
    b.recast (.ifStmt test consequent (.some alternate)) =
      .ifStmt test consequent.braced (.some (if b = .ifElse then alternate.braced else alternate)) := by
  cases b <;> rfl

/-- A rule that changes nothing but positions changes nothing at all. -/
theorem recast_eq_of_same {b : Builtin} {s : Stmt} (h : (b.recast s).same s = true) :
    b.recast s = s := by
  obtain ⟨hform, hparts⟩ := Tree.same_iff.mp h
  cases s with
  | exprStmt e =>
    cases e with
    | binary op left right =>
      cases op with
      | and => exact absurd hform Bool.false_ne_true
      | or => exact absurd hform Bool.false_ne_true
      | _ => rfl
    | conditional test left right => exact absurd hform Bool.false_ne_true
    | _ => rfl
  | ifStmt test consequent alternate =>
    cases alternate with
    | none =>
      obtain ⟨-, hparts⟩ := Tree.related_cons.mp hparts
      have hbody := braced_eq_of_same (Tree.related_cons.mp hparts).1
      exact congrArg (Tree.ifStmt test · _) hbody
    | some alternate =>
      rw [recast_ifStmt_some] at hparts ⊢
      obtain ⟨-, hparts⟩ := Tree.related_cons.mp hparts
      obtain ⟨hbody, hparts⟩ := Tree.related_cons.mp hparts
      have halternate := (Tree.same_iff.mp (Tree.related_cons.mp hparts).1).2
      rw [braced_eq_of_same hbody]
      split
      · rename_i hb
        rw [if_pos hb] at halternate
        rw [braced_eq_of_same (Tree.related_cons.mp halternate).1]
      · rfl
  | whileStmt test inner =>
    obtain ⟨-, hparts⟩ := Tree.related_cons.mp hparts
    exact congrArg (Tree.whileStmt test) (braced_eq_of_same (Tree.related_cons.mp hparts).1)
  | doWhile test inner =>
    obtain ⟨-, hparts⟩ := Tree.related_cons.mp hparts
    exact congrArg (Tree.doWhile test) (braced_eq_of_same (Tree.related_cons.mp hparts).1)
  | forStmt init test step inner =>
    obtain ⟨-, hparts⟩ := Tree.related_cons.mp hparts
    obtain ⟨-, hparts⟩ := Tree.related_cons.mp hparts
    obtain ⟨-, hparts⟩ := Tree.related_cons.mp hparts
    exact congrArg (Tree.forStmt init test step) (braced_eq_of_same (Tree.related_cons.mp hparts).1)
  | forIn left right inner =>
    obtain ⟨-, hparts⟩ := Tree.related_cons.mp hparts
    obtain ⟨-, hparts⟩ := Tree.related_cons.mp hparts
    exact congrArg (Tree.forIn left right) (braced_eq_of_same (Tree.related_cons.mp hparts).1)
  | forOf isAwait left right inner =>
    obtain ⟨-, hparts⟩ := Tree.related_cons.mp hparts
    obtain ⟨-, hparts⟩ := Tree.related_cons.mp hparts
    exact congrArg (Tree.forOf isAwait left right) (braced_eq_of_same (Tree.related_cons.mp hparts).1)
  | _ => rfl

theorem simplifyStmt_of_ne {s : Stmt} (h : ∀ parts, s ≠ .exprStmt (.comma parts)) :
    simplifyStmt table s = applyToStmt table s := by
  cases s with
  | exprStmt e =>
    cases e with
    | comma parts => exact absurd rfl (h parts)
    | _ => rfl
  | _ => rfl

theorem simplified_of_ne {s : Stmt} (h : ∀ parts, s ≠ .exprStmt (.comma parts)) :
    Builtin.simplified bs s = Builtin.reshaped bs s := by
  cases s with
  | exprStmt e =>
    cases e with
    | comma parts => exact absurd rfl (h parts)
    | _ => rfl
  | _ => rfl

/-- At a statement nothing is done, or the first rule that accepts it is applied, or there is at most
the rule for interop helpers left. -/
theorem applyToStmt_cases (htable : table.Offers bs helpers) {s : Stmt} (hs : s.holes = []) :
    (applyToStmt table s = pure s ∧ Builtin.reshaped bs s = s) ∨
      (∃ b, Builtin.pick bs s = some b ∧ applyToStmt table s = (do record b.rule; return b.recast s)) ∨
      (helpers = true ∧ (∃ fn, s = .functionStmt fn) ∧ Builtin.pick bs s = none ∧
        Builtin.interopRule.applyToStmt? table.options s =
          some (.ok (Builtin.interopHelper (.ident "_interopRequireDefault" none) (.ident "obj" none)))) := by
  cases hb : Builtin.pick bs s with
  | some b =>
    rw [applyToStmt_of_pick htable hs hb]
    split
    · rename_i hsame
      refine .inl ⟨rfl, ?_⟩
      rw [Builtin.reshaped, hb]
      exact recast_eq_of_same hsame
    · exact .inr (.inl ⟨b, rfl, rfl⟩)
  | none =>
    have hreshaped : Builtin.reshaped bs s = s := by rw [Builtin.reshaped, hb]
    rcases Builtin.applyToStmt?_interopRule table.options s with hnone | ⟨hfn, hsome⟩
    · exact .inl ⟨applyToStmt_of_pick_none htable hs hb (.inr hnone), hreshaped⟩
    · cases helpers with
      | false => exact .inl ⟨applyToStmt_of_pick_none htable hs hb (.inl rfl), hreshaped⟩
      | true => exact .inr (.inr ⟨rfl, hfn, rfl, hsome⟩)

/-- The step at a statement, given that functions are named. -/
theorem yields_simplifyStmt (htable : table.Offers bs helpers) {s : Stmt} (hs : s.holes = [])
    {named : Tree .function → String → Option Nat → Prop}
    (hnames : ∀ fn, helpers = true → s = .functionStmt fn →
      (Builtin.interopRule.applyToStmt? table.options (.functionStmt fn)).isSome = true →
        Names r fn (named fn)) :
    Yields r (simplifyStmt table s) fun s' =>
      s' = Builtin.simplified bs s ∨ ∃ fn name id, s = .functionStmt fn ∧ named fn name id ∧
        s' = Builtin.interopHelper (.ident name id) (.ident "obj" none) := by
  by_cases hcomma : ∃ parts, s = .exprStmt (.comma parts)
  · obtain ⟨parts, rfl⟩ := hcomma
    exact (yields_count _).bind (fun _ _ => yields_pure (.inl rfl)) fun _ => keeps_pure _
  · have hne : ∀ parts, s ≠ .exprStmt (.comma parts) := fun parts h => hcomma ⟨parts, h⟩
    rw [simplifyStmt_of_ne hne, simplified_of_ne hne]
    rcases applyToStmt_cases htable hs with
      ⟨hpure, hreshaped⟩ | ⟨b, hb, hrecord⟩ | ⟨rfl, ⟨fn, rfl⟩, hb, hsome⟩
    · rw [hpure]
      exact yields_pure (.inl hreshaped.symm)
    · rw [hrecord, Builtin.reshaped, hb]
      exact (yields_count _).bind (fun _ _ => yields_pure (.inl rfl)) fun _ => keeps_pure _
    · rw [Builtin.reshaped, hb]
      have hnamed := hnames fn rfl rfl (Option.isSome_iff_exists.mpr ⟨_, hsome⟩)
      refine (yields_applyToStmt_interopRule htable hs hb hsome hnamed).imp fun s' hs' => ?_
      exact hs'.imp id fun ⟨name, id, hname, hs'⟩ => ⟨fn, name, id, rfl, hname, hs'⟩

/-- Where splitting and the rules have nothing to do, the step at a statement does nothing. -/
theorem simplifyStmt_eq_pure (htable : table.Offers bs false) {s : Stmt} (hs : s.holes = [])
    (hnan : s.NaNFree) (hne : ∀ parts, s ≠ .exprStmt (.comma parts))
    (hreshaped : Builtin.reshaped bs s = s) : simplifyStmt table s = pure s := by
  rw [simplifyStmt_of_ne hne]
  cases hb : Builtin.pick bs s with
  | none => exact applyToStmt_of_pick_none htable hs hb (.inl rfl)
  | some b =>
    rw [Builtin.reshaped, hb] at hreshaped
    replace hreshaped : b.recast s = s := hreshaped
    have hsame : (b.recast s).same s = true := by
      rw [hreshaped]
      exact Tree.same_refl hnan
    rw [applyToStmt_of_pick htable hs hb, if_pos hsame]

/-! ## Expressions -/

theorem firstMatch?_expr (htable : table.Offers bs helpers) (e : Expr) :
    firstMatch? table (·.applyToExpr? table.options e) =
      bs.findSome? fun b => (b.spelling? e).map fun written => (b.rule, .ok written) := by
  have hhelper : (cond helpers [Builtin.interopRule] []).findSome? (fun r =>
      (r.applyToExpr? table.options e).map (r, ·)) = none := by
    cases helpers <;> rfl
  rw [firstMatch?, htable, List.findSome?_append, hhelper, Option.or_none, List.findSome?_map]
  congr 1
  funext b
  rw [Function.comp_apply, Builtin.applyToExpr?_rule, Option.map_map]
  rfl

theorem spelling?_eq_some {b : Builtin} {e written : Expr} :
    b.spelling? e = some written ↔
      ∃ found, b.constant? = some (found, written) ∧ found.same e = true := by
  rw [Builtin.spelling?]
  constructor
  · intro h
    split at h
    · rename_i found written' hb
      split at h
      · rename_i hsame
        cases h
        exact ⟨found, hb, hsame⟩
      · cases h
    · cases h
  · rintro ⟨found, hb, hsame⟩
    simp only [hb, hsame, if_true]

/-- A constant is not the same as what is written for it. -/
theorem same_spelling? {b : Builtin} {e written : Expr} (h : b.spelling? e = some written) :
    written.same e = false := by
  obtain ⟨found, hb, hsame⟩ := spelling?_eq_some.mp h
  rw [Bool.eq_false_iff]
  intro hwritten
  -- the two have different forms
  have hforms := (Tree.same_iff.mp (Tree.same_trans hsame (Tree.same_symm hwritten))).1
  cases b <;> cases hb <;> exact absurd hforms Bool.false_ne_true

theorem applyToExpr_eq_pure (htable : table.Offers bs helpers) {e : Expr}
    (h : ∀ b ∈ bs, b.spelling? e = none) : applyToExpr table e = pure e := by
  have hfirst : firstMatch? table (·.applyToExpr? table.options e) = none := by
    rw [firstMatch?_expr htable, List.findSome?_eq_none_iff]
    intro b hb
    rw [h b hb]
    rfl
  rw [applyToExpr, hfirst]

/-- At an expression nothing is done, or the first rule that recognizes it is applied. -/
theorem applyToExpr_cases (htable : table.Offers bs helpers) (e : Expr) :
    (applyToExpr table e = pure e ∧ Builtin.spelled bs e = e) ∨
      ∃ (b : Builtin) (written : Expr), b.spelling? e = some written ∧ Builtin.spelled bs e = written ∧
        applyToExpr table e = (do record b.rule; return written) := by
  by_cases h : ∀ b ∈ bs, b.spelling? e = none
  · refine .inl ⟨applyToExpr_eq_pure htable h, ?_⟩
    rw [Builtin.spelled, List.findSome?_eq_none_iff.mpr h]
    rfl
  · obtain ⟨b, written, hb, hfirst, hspelled⟩ : ∃ (b : Builtin) (written : Expr),
        b.spelling? e = some written ∧
        firstMatch? table (·.applyToExpr? table.options e) = some (b.rule, .ok written) ∧
        Builtin.spelled bs e = written := by
      rw [firstMatch?_expr htable, Builtin.spelled]
      clear htable
      induction bs with
      | nil => exact absurd (fun b hb => (nomatch hb)) h
      | cons b bs ih =>
        rw [List.findSome?_cons, List.findSome?_cons]
        cases hb : b.spelling? e with
        | some written => exact ⟨b, written, hb, rfl, rfl⟩
        | none => exact ih fun hall => h (List.forall_mem_cons.mpr ⟨hb, hall⟩)
    refine .inr ⟨b, written, hb, hspelled, ?_⟩
    rw [applyToExpr, hfirst]
    simp only [same_spelling? hb, Bool.false_eq_true, if_false]

/-- The step at an expression. -/
theorem yields_applyToExpr (htable : table.Offers bs helpers) (e : Expr) :
    Yields r (applyToExpr table e) fun e' => e' = Builtin.spelled bs e := by
  rcases applyToExpr_cases htable e with ⟨hpure, hspelled⟩ | ⟨b, written, -, hspelled, hrecord⟩
  · rw [hpure]
    exact yields_pure hspelled.symm
  · rw [hrecord]
    exact (yields_count _).bind (fun _ _ => yields_pure hspelled.symm) fun _ => keeps_pure _

end Pass

end Unminify
