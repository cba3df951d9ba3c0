import Unminify.Proofs.Pass.Termination
import Unminify.Proofs.Pattern.Relocated
import Unminify.Proofs.Scope.Relocated

/-!
# Passes at other positions

What a pass does to a program does not depend on where the identifiers of the program stand.

Two steps of a pass *follow* each other along a map of positions if, from states that track each other,
they come to states that do and to results that the map takes to one another. Every step follows itself
at other positions, and so does a whole walk (`follows_walk`). For an injective map this makes the pass
over a program at other positions the pass over the program, at other positions (`passTo_relocate`).

Two programs that are the same and have their identifiers numbered are one program at different
positions, so passes over them come to the same (`alike_pass`), as long as the templates of the rules do
not bring in ids of their own that the programs use. Templates that do bring positions into play
(`not_agree_captured`).
-/

namespace Unminify

variable {φ : Nat → Nat}

namespace Pass

/-- Two passes stand at the same point, the one at other positions. -/
structure State.Tracks (φ : Nat → Nat) (s s' : State) : Prop where
  graph : s.graph.Tracks φ s'.graph
  stats : s'.stats = s.stats
  error : s'.error = s.error

section

variable {α β : Type} {f : α → α} {g : β → β} {x x' : Pass α} {k k' : α → Pass β}

/-- From states that track each other, two steps come to such states, and to results of which the
second is the image of the first. -/
def Follows (φ : Nat → Nat) (f : α → α) (x x' : Pass α) : Prop :=
  ∀ s s', State.Tracks φ s s' →
    State.Tracks φ (x.run s).2 (x'.run s').2 ∧ (x'.run s').1 = f (x.run s).1

theorem follows_pure (a : α) : Follows φ f (pure a) (pure (f a)) := fun _ _ h => ⟨h, rfl⟩

theorem Follows.bind (hx : Follows φ f x x') (hk : ∀ a, Follows φ g (k a) (k' (f a))) :
    Follows φ g (x >>= k) (x' >>= k') := by
  intro s s' h
  obtain ⟨hstate, hresult⟩ := hx s s' h
  have hnext := hk (x.run s).1 (x.run s).2 (x'.run s').2 hstate
  rw [← hresult] at hnext
  exact hnext

/-- Following is inherited by the walks of a pass. -/
def transport (φ : Nat → Nat) : Tree.Transport Pass where
  rel := Follows φ
  pure := follows_pure
  bind := Follows.bind

theorem follows_count (h : Stats → Stats) : Follows φ id (count h) (count h) :=
  fun _ _ hs => ⟨⟨hs.graph, congrArg h hs.stats, hs.error⟩, rfl⟩

theorem follows_fail (e : PassError) : Follows φ id (fail e) (fail e) :=
  fun _ _ hs => ⟨⟨hs.graph, hs.stats, congrArg (· <|> some e) hs.error⟩, rfl⟩

/-- A rule at other positions has its name. -/
theorem follows_record (r : Rule) : Follows φ id (record r) (record (r.relocate φ)) := follows_count _

theorem follows_rename (b : BindingId) (name : String) :
    Follows φ id (modify fun s => { s with graph := s.graph.rename b name })
      (modify fun s => { s with graph := s.graph.rename b name }) :=
  fun _ _ hs => ⟨⟨hs.graph.rename b name, hs.stats, hs.error⟩, rfl⟩

/-- Steps may look at states that track each other. -/
theorem follows_get {k k' : State → Pass β}
    (hk : ∀ s s', State.Tracks φ s s' → Follows φ g (k s) (k' s')) :
    Follows φ g (get >>= k) (get >>= k') :=
  fun s s' h => hk s s' h s s' h

theorem Follows.unlessStopped (hx : Follows φ f x x') (a : α) :
    Follows φ f (do if ← stopped then return a else x) (do if ← stopped then return f a else x') := by
  intro s s' h
  show State.Tracks φ ((if s.error.isSome = true then pure a else x).run s).2
      ((if s'.error.isSome = true then pure (f a) else x').run s').2 ∧
    ((if s'.error.isSome = true then pure (f a) else x').run s').1 =
      f ((if s.error.isSome = true then pure a else x).run s).1
  rw [h.error]
  split
  · exact ⟨h, rfl⟩
  · exact hx s s' h

end

/-! ## Rules -/

variable {table : RuleTable}

theorem firstMatch?_relocate {α : Type} {f : α → α} {tryRule tryRule' : Rule → Option (Except FillError α)}
    (h : ∀ r, tryRule' (r.relocate φ) = (tryRule r).map (Except.map f)) :
    firstMatch? (table.relocate φ) tryRule' =
      (firstMatch? table tryRule).map fun (r, x) => (r.relocate φ, x.map f) := by
  unfold firstMatch? RuleTable.relocate
  rw [List.findSome?_map, List.map_findSome?]
  congr 1
  funext r
  simp only [Function.comp_apply, h, Option.map_map]
  rfl

/-- A match at the front of a statement list, at other positions. -/
def WindowMatch.relocate (φ : Nat → Nat) (m : WindowMatch) : WindowMatch where
  rule := m.rule.relocate φ
  length := m.length
  outcome := m.outcome.map (Tree.relocate φ)

theorem windowAt?_relocate (table : RuleTable) (ss : List Stmt) :
    windowAt? (table.relocate φ) (ss.map (Tree.relocate φ)) =
      (windowAt? table ss).map (WindowMatch.relocate φ) := by
  unfold windowAt? RuleTable.relocate
  rw [List.findSome?_map, List.map_findSome?]
  congr 1
  funext r
  have hwindow : (r.relocate φ).window? = r.window? := rfl
  simp only [Function.comp_apply, hwindow, List.length_map]
  cases r.window? with
  | none => rfl
  | some n =>
    simp only [Option.bind_eq_bind, Option.bind_some, ← List.map_take, Rule.applyToList?_relocate]
    split
    · rfl
    · cases r.applyToList? table.options (ss.take n) <;> rfl

theorem members_relocate (s : Stmt) : members (s.relocate φ) = (members s).map (Tree.relocate φ) := by
  cases s with
  | sequence inner => exact Tree.statements_relocate φ inner
  | _ => rfl

/-! ## Steps -/

/-- What a sweep does at other positions depends on what rules match at the positions given. -/
theorem sweep_relocate (s : Stmt) (rest : List Stmt) :
    sweep (table.relocate φ) ((s :: rest).map (Tree.relocate φ)) =
      match windowAt? table (s :: rest) with
      | none => return s.relocate φ :: (← sweep (table.relocate φ) (rest.map (Tree.relocate φ)))
      | some m =>
        match m.outcome with
        | .error cause => do
          fail (.fill m.rule.name cause)
          return (s :: rest).map (Tree.relocate φ)
        | .ok replacement =>
          if (Tree.ofList (members replacement)).same (Tree.ofList ((s :: rest).take m.length)) then
            return s.relocate φ :: (← sweep (table.relocate φ) (rest.map (Tree.relocate φ)))
          else
            match m.length with
            | 0 => do
              fail .endless
              return (s :: rest).map (Tree.relocate φ)
            | n + 1 => do
              record (m.rule.relocate φ)
              return (members replacement).map (Tree.relocate φ) ++
                (← sweep (table.relocate φ) ((rest.drop n).map (Tree.relocate φ))) := by
  have hwindow := windowAt?_relocate (φ := φ) table (s :: rest)
  rw [List.map_cons] at hwindow ⊢
  rw [sweep, hwindow]
  cases windowAt? table (s :: rest) with
  | none => rfl
  | some m =>
    obtain ⟨rule, length, outcome⟩ := m
    cases outcome with
    | error cause => rfl
    | ok replacement =>
      cases length <;>
        simp only [Option.map_some, WindowMatch.relocate, Except.map, members_relocate, ← List.map_cons,
          ← List.map_take, ← List.map_drop, ← Tree.ofList_relocate, Tree.same_relocate_relocate]

/-- A sweep over a statement list. -/
theorem follows_sweep (ss : List Stmt) :
    Follows φ (List.map (Tree.relocate φ)) (sweep table ss)
      (sweep (table.relocate φ) (ss.map (Tree.relocate φ))) := by
  fun_induction sweep table ss with
  | case1 =>
    rw [List.map_nil, sweep]
    exact follows_pure []
  | case2 s rest hm ih =>
    rw [sweep_relocate, hm]
    exact ih.bind fun ss => follows_pure (s :: ss)
  | case3 s rest m hm cause hcause =>
    rw [sweep_relocate, hm]
    simp only [hcause]
    exact (follows_fail _).bind fun _ => follows_pure (s :: rest)
  | case4 s rest m hm replacement houtcome new hsame ih =>
    rw [sweep_relocate, hm]
    simp only [houtcome]
    rw [if_pos hsame]
    exact ih.bind fun ss => follows_pure (s :: ss)
  | case5 s rest m hm replacement houtcome new hsame hlength =>
    rw [sweep_relocate, hm]
    simp only [houtcome]
    rw [if_neg hsame]
    simp only [hlength]
    exact (follows_fail _).bind fun _ => follows_pure (s :: rest)
  | case6 s rest m hm replacement houtcome new hsame n hlength ih =>
    rw [sweep_relocate, hm]
    simp only [houtcome]
    rw [if_neg hsame]
    simp only [hlength]
    refine (follows_record m.rule).bind fun _ => ih.bind fun ss => ?_
    rw [← List.map_append]
    exact follows_pure (new ++ ss)

/-- A function takes the name that is free at the positions given. -/
theorem follows_disambiguate_function {isAsync isGenerator isAsync' isGenerator' : Bool} (declared : Name)
    {params params' : Tree (.list .binder)} {inner inner' : Block} (proposed : String) (id : Option Nat) :
    Follows φ (Option.map (Tree.relocate φ))
      (disambiguate
        (.functionStmt (.function isAsync isGenerator (.some declared) params inner))
        (.functionStmt (.function isAsync' isGenerator' (.some (.ident proposed id)) params' inner')))
      (disambiguate
        (.functionStmt (.function isAsync isGenerator (.some (declared.relocate φ)) (params.relocate φ)
          (inner.relocate φ)))
        (.functionStmt (.function isAsync' isGenerator' (.some (.ident proposed (id.map φ)))
          (params'.relocate φ) (inner'.relocate φ)))) := by
  refine follows_get fun s s' h => ?_
  have hbound : ((declared.relocate φ).nameId?.bind fun id => (s'.graph.bindingAt id).map (id, ·)) =
      (declared.nameId?.bind fun id => (s.graph.bindingAt id).map (id, ·)).map fun (id, b) => (φ id, b) := by
    rw [Tree.nameId?_relocate]
    cases declared.nameId? with
    | none => rfl
    | some i =>
      simp only [Option.map_some, Option.bind_some, h.graph.bindingAt, Option.map_map]
      rfl
  dsimp only
  rw [hbound, Tree.nameText?_relocate]
  cases declared.nameId?.bind fun id => (s.graph.bindingAt id).map (id, ·) with
  | none => exact (follows_fail _).bind fun _ => follows_pure none
  | some found =>
    obtain ⟨id, b⟩ := found
    simp only [Option.map_some, h.graph.freeName, h.graph.isNamed]
    split
    · exact (follows_rename b _).bind fun _ => (follows_count _).bind fun _ => follows_pure (some _)
    · exact follows_pure (some _)

/-- A replacement is given a name. -/
theorem follows_disambiguate (old new : Stmt) :
    Follows φ (Option.map (Tree.relocate φ)) (disambiguate old new)
      (disambiguate (old.relocate φ) (new.relocate φ)) := by
  cases old with
  | functionStmt fn =>
    cases fn with
    | function isAsync isGenerator declared params inner =>
      cases declared with
      | none => exact follows_pure (some new)
      | some declared =>
        cases new with
        | functionStmt fn' =>
          cases fn' with
          | function isAsync' isGenerator' name' params' inner' =>
            cases name' with
            | none => exact follows_pure (some _)
            | some name' =>
              cases name' with
              | nameHole _ => exact follows_pure (some _)
              | ident proposed id' => exact follows_disambiguate_function declared proposed id'
        | _ => exact follows_pure (some _)
  | _ => exact follows_pure (some new)

/-- The first rule that matches a statement is applied. -/
theorem follows_applyToStmt (s : Stmt) :
    Follows φ (Tree.relocate φ) (applyToStmt table s) (applyToStmt (table.relocate φ) (s.relocate φ)) := by
  have hfirst : firstMatch? (table.relocate φ) (·.applyToStmt? table.options (s.relocate φ)) =
      (firstMatch? table (·.applyToStmt? table.options s)).map fun (r, x) =>
        (r.relocate φ, x.map (Tree.relocate φ)) :=
    firstMatch?_relocate fun r => r.applyToStmt?_relocate table.options s
  unfold applyToStmt
  rw [show (table.relocate φ).options = table.options from rfl, hfirst]
  cases firstMatch? table (·.applyToStmt? table.options s) with
  | none => exact follows_pure s
  | some found =>
    obtain ⟨r, x⟩ := found
    cases x with
    | error cause => exact (follows_fail _).bind fun _ => follows_pure s
    | ok replacement =>
      refine (follows_disambiguate s replacement).bind fun new => ?_
      cases new with
      | none => exact follows_pure s
      | some new =>
        simp only [Option.map_some, Tree.same_relocate_relocate]
        split
        · exact follows_pure s
        · exact (follows_record r).bind fun _ => follows_pure new

/-- The first rule that matches an expression is applied. -/
theorem follows_applyToExpr (e : Expr) :
    Follows φ (Tree.relocate φ) (applyToExpr table e) (applyToExpr (table.relocate φ) (e.relocate φ)) := by
  have hfirst : firstMatch? (table.relocate φ) (·.applyToExpr? table.options (e.relocate φ)) =
      (firstMatch? table (·.applyToExpr? table.options e)).map fun (r, x) =>
        (r.relocate φ, x.map (Tree.relocate φ)) :=
    firstMatch?_relocate fun r => r.applyToExpr?_relocate table.options e
  unfold applyToExpr
  rw [show (table.relocate φ).options = table.options from rfl, hfirst]
  cases firstMatch? table (·.applyToExpr? table.options e) with
  | none => exact follows_pure e
  | some found =>
    obtain ⟨r, x⟩ := found
    cases x with
    | error cause => exact (follows_fail _).bind fun _ => follows_pure e
    | ok replacement =>
      simp only [Option.map_some, Except.map, Tree.same_relocate_relocate]
      split
      · exact follows_pure e
      · exact (follows_record r).bind fun _ => follows_pure replacement

theorem follows_simplifyStmt (s : Stmt) :
    Follows φ (Tree.relocate φ) (simplifyStmt table s) (simplifyStmt (table.relocate φ) (s.relocate φ)) := by
  cases s with
  | exprStmt e =>
    cases e with
    | comma parts =>
      refine (follows_count _).bind fun _ => ?_
      have hsplit : Tree.sequence (Tree.blockOf ((parts.relocate φ).toList.map .exprStmt)) =
          (Tree.sequence (Tree.blockOf (parts.toList.map .exprStmt))).relocate φ := by
        rw [Tree.toList_relocate, List.map_map]
        exact (congrArg Tree.sequence ((Tree.blockOf_relocate φ _).trans (by rw [List.map_map]; rfl))).symm
      rw [hsplit]
      exact follows_pure _
    | _ => exact follows_applyToStmt _
  | _ => exact follows_applyToStmt _

theorem splice_relocate (ss : List Stmt) :
    Tree.splice (ss.map (Tree.relocate φ)) = (Tree.splice ss).map (Tree.relocate φ) := by
  fun_induction Tree.splice ss with
  | case1 => rw [List.map_nil, Tree.splice]
  | case2 inner rest ih =>
    rw [List.map_append, ← Tree.statements_relocate] at ih
    rw [← ih, List.map_cons]
    exact Tree.splice.eq_2 _ _
  | case3 s rest hs ih =>
    rw [List.map_cons, List.map_cons, ← ih]
    refine Tree.splice.eq_3 _ _ fun inner hinner => ?_
    cases s with
    | sequence inner => exact hs inner rfl
    | _ => cases hinner

/-! ## The walk -/

theorem follows_descend {depth : Nat}
    (h : ∀ c (t : Tree c), Follows φ (Tree.relocate φ) (walk table depth c t)
      (walk (table.relocate φ) depth c (t.relocate φ))) {c : Category} (t : Tree c) :
    Follows φ (Tree.relocate φ) (t.descend (hookAt table depth))
      ((t.relocate φ).descend (hookAt (table.relocate φ) depth)) := by
  induction t using Tree.induction_on_parts with
  | step c t ih =>
    refine (transport φ).descend t fun p hp => ?_
    simp only [hookAt]
    split
    · exact h p.1 p.2
    · exact ih p (Tree.mem_parts_of_visited hp)

/-- A walk follows itself at other positions. -/
theorem follows_walk (depth : Nat) (c : Category) (t : Tree c) :
    Follows φ (Tree.relocate φ) (walk table depth c t) (walk (table.relocate φ) depth c (t.relocate φ)) := by
  induction depth generalizing c t with
  | zero => exact (follows_fail _).bind fun _ => follows_pure t
  | succ depth ih =>
    have hdescend := fun {c} (t : Tree c) => follows_descend ih t
    rw [walk_succ, walk_succ]
    cases c with
    | block =>
      refine Follows.unlessStopped ?_ t
      rw [Tree.statements_relocate]
      refine (follows_sweep t.statements).bind fun swept => ?_
      rw [← Tree.blockOf_relocate]
      refine (hdescend (Tree.blockOf swept)).bind fun walked => ?_
      rw [Tree.statements_relocate, splice_relocate, ← Tree.blockOf_relocate]
      exact follows_pure _
    | stmt =>
      refine Follows.unlessStopped ?_ t
      exact (follows_simplifyStmt t).bind hdescend
    | expr =>
      refine Follows.unlessStopped ?_ t
      exact (follows_applyToExpr t).bind hdescend
    | body =>
      refine (hdescend t).bind fun b => ?_
      cases b with
      | body s =>
        cases s with
        | sequence inner => exact (follows_count _).bind fun _ => follows_pure (Tree.body (.blockStmt inner))
        | _ => exact follows_pure _
    | _ => exact hdescend t

end Pass

/-! ## Whole passes -/

namespace RuleTable

open Pass

/-- A pass over a program at other positions is the pass over the program, at other positions. -/
theorem passTo_relocate (hφ : Function.Injective φ) (table : RuleTable) (depth : Nat) (p : Program) :
    (table.relocate φ).passTo depth (p.relocate φ) =
      ((table.passTo depth p).1.relocate φ, (table.passTo depth p).2) := by
  have hwalk : Follows φ (Tree.relocate φ) (walk table depth .block p.body)
      (walk (table.relocate φ) depth .block (p.body.relocate φ)) := follows_walk depth .block p.body
  obtain ⟨hstate, hbody⟩ := hwalk { graph := p.scopeGraph } { graph := (p.relocate φ).scopeGraph }
    ⟨p.tracks_scopeGraph hφ, rfl, rfl⟩
  unfold passTo
  show outcome ((walk (table.relocate φ) depth .block (p.body.relocate φ)).run
    { graph := (p.relocate φ).scopeGraph }) = _
  generalize (walk table depth .block p.body).run _ = result at hstate hbody
  generalize (walk (table.relocate φ) depth .block (p.body.relocate φ)).run _ = result' at hstate hbody
  obtain ⟨body, s⟩ := result
  obtain ⟨body', s'⟩ := result'
  obtain rfl : body' = body.relocate φ := hbody
  cases herror : s.error with
  | some e =>
    rw [outcome_of_some herror, outcome_of_some (hstate.error.trans herror)]
    rfl
  | none =>
    rw [outcome_of_none herror, outcome_of_none (hstate.error.trans herror), ScopeGraph.fst_applyRenames,
      ScopeGraph.fst_applyRenames, hstate.graph.renamed, hstate.stats]
    rfl

/-- No template of the rules has an id that the tree has. -/
def Apart (table : RuleTable) {c : Category} (t : Tree c) : Prop :=
  ∀ r ∈ table.rules, ∀ id ∈ r.replacement.phrase.2.ids, id ∉ t.ids

instance (table : RuleTable) {c : Category} (t : Tree c) : Decidable (table.Apart t) :=
  inferInstanceAs (Decidable (∀ r ∈ table.rules, ∀ id ∈ r.replacement.phrase.2.ids, id ∉ t.ids))

/-- Ids apart from those of trees are renumbered in one way. -/
theorem relocate_renumber {table : RuleTable} {c : Category} {t u : Tree c} (ht : table.Apart t)
    (hu : table.Apart u) :
    table.relocate (Tree.renumber t.ids) = table.relocate (Tree.renumber u.ids) := by
  have hrule : ∀ r ∈ table.rules,
      r.relocate (Tree.renumber t.ids) = r.relocate (Tree.renumber u.ids) := by
    intro r hr
    have hreplacement : r.replacement.relocate (Tree.renumber t.ids) =
        r.replacement.relocate (Tree.renumber u.ids) := by
      apply Pattern.relocate_congr
      intro i hi
      rw [Tree.renumber_of_not_mem (ht r hr _ hi), Tree.renumber_of_not_mem (hu r hr _ hi)]
    simp only [Rule.relocate, hreplacement]
  unfold relocate
  rw [List.map_congr_left hrule]

end RuleTable

namespace Pass

/-- Two passes come to the same: to the same error or the same counts, and to programs that are one
program at different positions. -/
structure Alike (result result' : Program × Except PassError Stats) : Prop where
  outcome : result'.2 = result.2
  /-- Each of the two numberings of the identifiers can be read off the other. -/
  positions : ∃ φ ψ : Nat → Nat, Function.Injective φ ∧ Function.Injective ψ ∧
    result.1.body.relocate φ = result'.1.body.relocate ψ
  same : result.1.body.NaNFree → result.1.body.same result'.1.body = true

end Pass

namespace RuleTable

open Pass

theorem alike_passTo {table : RuleTable} {p q : Program} (hsame : p.body.same q.body = true)
    (hp : p.body.Numbered) (hq : q.body.Numbered) (hapart : table.Apart p.body)
    (hapart' : table.Apart q.body) (depth : Nat) : Alike (table.passTo depth p) (table.passTo depth q) := by
  have hφ := Tree.renumber_injective p.body.ids
  have hψ := Tree.renumber_injective q.body.ids
  have hprogram : p.relocate (Tree.renumber p.body.ids) = q.relocate (Tree.renumber q.body.ids) :=
    congrArg Program.mk (Tree.relocate_renumber_eq hsame hp hq)
  -- both passes are the one pass over the renumbered program
  have hpass := passTo_relocate hφ table depth p
  rw [hprogram, relocate_renumber hapart hapart', passTo_relocate hψ table depth q] at hpass
  have hbody : (table.passTo depth p).1.body.relocate (Tree.renumber p.body.ids) =
      (table.passTo depth q).1.body.relocate (Tree.renumber q.body.ids) :=
    congrArg Program.body (Prod.mk.inj hpass).1.symm
  exact {
    outcome := (Prod.mk.inj hpass).2
    positions := ⟨_, _, hφ, hψ, hbody⟩
    same := Tree.same_of_relocate_eq _ hbody }

/-- **Positions do not matter.** Passes over two programs that are the same and whose identifiers are
numbered, each in its own way, come to the same, at every depth; the templates of the rules may have ids,
but none that the programs have. -/
theorem alike_pass {table : RuleTable} {p q : Program} (hsame : p.body.same q.body = true)
    (hp : p.body.Numbered) (hq : q.body.Numbered) (hapart : table.Apart p.body)
    (hapart' : table.Apart q.body) :
    Alike (table.pass p) (table.pass q) ∧
      ∀ depth, Alike (table.passTo depth p) (table.passTo depth q) := by
  have hdepth := alike_passTo hsame hp hq hapart hapart'
  have hsize : p.body.size = q.body.size := by
    rw [← Tree.size_relocate (Tree.renumber p.body.ids), Tree.relocate_renumber_eq hsame hp hq,
      Tree.size_relocate]
  have hlimit : depthLimit p.body = depthLimit q.body := by
    unfold depthLimit
    rw [hsize]
  refine ⟨?_, hdepth⟩
  have hpass := hdepth (depthLimit p.body)
  rw [passTo, passTo, hlimit] at hpass
  rw [pass, pass, hlimit]
  exact hpass

/-! ### Templates with ids -/

/-- `function name() { inner }` -/
def plainFunction (name : Name) (inner : List Stmt) : Stmt :=
  .functionStmt (.function false false (.some name) .nil (Tree.blockOf inner))

/-- The rule that puts `function b() { x; }` in the place of `function a() {}`, with `x` at position 9. -/
def captureRule : Rule where
  name := "capture"
  pattern := .stmt (plainFunction (.ident "a" none) [])
  replacement := .stmt (plainFunction (.ident "b" none) [.exprStmt (.identExpr (.ident "x" (some 9)))])
  agree := rfl

/-- A program with its identifiers at given positions:
`function f(m) { return m && m.__esModule ? m : { default: m }; } f(x), g(void 0); function a() {}` -/
def captureUse (place : Nat → Nat) : Program :=
  let name (text : String) (n : Nat) : Name := .ident text (some (place n))
  let use (text : String) (n : Nat) : Expr := .identExpr (name text n)
  { body := Tree.blockOf [
      .functionStmt (.function false false (.some (name "f" 0)) (.ofList [.nameBinder (name "m" 1)])
        (Tree.blockOf [.returnStmt (.some (.conditional
          (.binary .and (use "m" 2) (.access false false (use "m" 3) (.literal (.string "__esModule"))))
          (use "m" 4)
          (.object (.ofList [.keyed (.nameKey "default") (use "m" 5)]))))])),
      .exprStmt (.comma (.ofList [
        .call false (use "f" 6) (.ofList [use "x" 7]),
        .call false (use "g" 8) (.ofList [.unary .void (.literal (.number ⟨0⟩))])])),
      plainFunction (name "a" 9) []] }

set_option maxRecDepth 100000 in
/-- The built-in rules and a rule whose template has an id: two functions are renamed, and what the
template brings in stays apart from both. -/
theorem alike_pass_captureUse :
    let table : RuleTable :=
      { rules := Builtin.all.map Builtin.rule ++ [Builtin.interopRule, captureRule] }
    let p := captureUse (10 + ·)
    let q := captureUse (40 - ·)
    (p.body.same q.body = true ∧ p.body.Numbered ∧ q.body.Numbered ∧ table.Apart p.body ∧
      table.Apart q.body) ∧
    (table.pass p).2 = .ok {
      applied := ["interop-require-default", "void-zero", "capture"], split := 1, renamed := 2 } ∧
    Alike (table.pass p) (table.pass q) ∧
      ∀ depth, Alike (table.passTo depth p) (table.passTo depth q) := by
  intro table p q
  have hsame : p.body.same q.body = true := by decide +kernel
  have hp : p.body.Numbered := by decide +kernel
  have hq : q.body.Numbered := by decide +kernel
  have hapart : table.Apart p.body := by decide +kernel
  have hapart' : table.Apart q.body := by decide +kernel
  refine ⟨⟨hsame, hp, hq, hapart, hapart'⟩, ?_, alike_pass hsame hp hq hapart hapart'⟩
  decide +kernel

/-- Two passes agree if they stop for the same reason, or come to the same counts and programs that are
the same. -/
def Agree (result result' : Program × Except PassError Stats) : Prop :=
  (∃ e, result.2 = .error e ∧ result'.2 = .error e) ∨
    ∃ stats, result.2 = .ok stats ∧ result'.2 = .ok stats ∧ result.1.body.same result'.1.body = true

/-- `function a() {}` with its name at a given position. -/
def captured (id : Nat) : Program := ⟨Tree.blockOf [plainFunction (.ident "a" (some id)) []]⟩

/-- The rule that puts a non-number in the place of `a`. -/
def spoilRule : Rule where
  name := "spoil"
  pattern := .expr (.identExpr (.ident "a" none))
  replacement := .expr (.literal (.number ⟨0x7ff8000000000000⟩))
  agree := rfl

/-- `a;` with its identifier at a given position. -/
def spoiled (id : Nat) : Program := ⟨Tree.blockOf [.exprStmt (.identExpr (.ident "a" (some id)))]⟩

theorem not_agree {result result' : Program × Except PassError Stats} {stats : Stats}
    (hok : result.2 = .ok stats) (hdiffer : result.1.body.same result'.1.body = false) :
    ¬ Agree result result' := by
  rintro (⟨e, herror, -⟩ | ⟨_, -, -, hsame⟩)
  · rw [hok] at herror
    cases herror
  · rw [hsame] at hdiffer
    cases hdiffer

set_option maxRecDepth 100000 in
/-- The ids of templates matter: the `x` of the rule is captured by the function it stands in just if
that function is at position 9. And a non-number that a template brings in is not the same as itself, so
that programs need not be the same even if no template has ids. -/
theorem not_agree_captured :
    (¬ ∀ (table : RuleTable) (p q : Program), p.body.NaNFree → q.body.NaNFree →
      p.body.same q.body = true → p.body.Numbered → q.body.Numbered → table.Ends p → table.Ends q →
        Agree (table.pass p) (table.pass q)) ∧
    ¬ ∀ (table : RuleTable) (p q : Program), table.Apart p.body → table.Apart q.body →
      p.body.NaNFree → q.body.NaNFree → p.body.same q.body = true → p.body.Numbered →
        q.body.Numbered → table.Ends p → table.Ends q → Agree (table.pass p) (table.pass q) := by
  constructor
  · intro h
    let table : RuleTable := { rules := [captureRule] }
    have hok : ∀ id ∈ [9, 10],
        (table.pass (captured id)).2 = .ok { applied := ["capture"], renamed := 1 } := by decide +kernel
    have hends : ∀ id ∈ [9, 10], table.Ends (captured id) := fun id hid => ends_of_pass (hok id hid)
    have hdiffer : (table.pass (captured 9)).1.body.same (table.pass (captured 10)).1.body = false := by
      decide +kernel
    refine not_agree (hok 9 (by decide)) hdiffer (h table (captured 9) (captured 10) ?_ ?_ ?_ ?_ ?_
      (hends 9 (by decide)) (hends 10 (by decide)))
    all_goals decide
  · intro h
    let table : RuleTable := { rules := [spoilRule] }
    have hok : ∀ id ∈ [0, 1], (table.pass (spoiled id)).2 = .ok { applied := ["spoil"] } := by
      decide +kernel
    have hends : ∀ id ∈ [0, 1], table.Ends (spoiled id) := fun id hid => ends_of_pass (hok id hid)
    have hdiffer : (table.pass (spoiled 0)).1.body.same (table.pass (spoiled 1)).1.body = false := by
      decide +kernel
    refine not_agree (hok 0 (by decide)) hdiffer (h table (spoiled 0) (spoiled 1) ?_ ?_ ?_ ?_ ?_ ?_ ?_
      (hends 0 (by decide)) (hends 1 (by decide)))
    all_goals decide

end RuleTable

end Unminify
