import Unminify.Proofs.Pattern.Filling
import Unminify.Proofs.Syntax.Relocated
import Unminify.Rule.Table

/-!
# Rules at other positions

Matching does not look at positions, but what holes are bound to has positions, and so have templates.

* `matches_relocate` — a pattern matches a tree at other positions just if it matches the tree, and
  binds the values of that match at other positions;
* `fillTree_relocate` — a template and values at other positions make what is made of the template and
  the values, at other positions.

So a rule with its replacement at other positions makes of a phrase at other positions what the rule
makes of the phrase, at other positions.
-/

namespace Unminify

variable {φ : Nat → Nat}

/-! ## Environments -/

/-- A bound value at other positions. -/
def Bound.relocate (φ : Nat → Nat) : Bound → Bound
  | name t => name (t.relocate φ)
  | stmt t => stmt (t.relocate φ)
  | expr t => expr (t.relocate φ)
  | decl t => decl (t.relocate φ)

theorem Bound.same_relocate (v w : Bound) : (v.relocate φ).same (w.relocate φ) = v.same w := by
  cases v <;> cases w <;> first | rfl | exact Tree.same_relocate_relocate φ _ _

theorem Bound.at?_relocate (c : Category) (v : Bound) :
    (v.relocate φ).at? c = (v.at? c).map (Tree.relocate φ) := by
  cases c <;> cases v <;> rfl

namespace Environment

/-- An environment with all values at other positions. -/
def relocate (φ : Nat → Nat) (env : Environment) : Environment where
  entries := env.entries.map fun (h, v) => (h, v.relocate φ)

theorem get?_relocate (env : Environment) (h : Hole) :
    (env.relocate φ).get? h = (env.get? h).map (Bound.relocate φ) := by
  obtain ⟨entries⟩ := env
  induction entries with
  | nil => rfl
  | cons e es ih =>
    obtain ⟨k, v⟩ := e
    simp only [get?, relocate] at ih
    simp only [get?, relocate, List.map_cons, List.lookup_cons]
    cases h == k with
    | true => rfl
    | false => exact ih

theorem insert_relocate (env : Environment) (h : Hole) (v : Bound) :
    (env.relocate φ).insert h (v.relocate φ) = (env.insert h v).relocate φ := by
  unfold insert
  rw [get?_relocate]
  cases env.get? h with
  | some _ => rfl
  | none => simp [relocate]

theorem size_relocate (env : Environment) : (env.relocate φ).size = env.size :=
  List.length_map _

end Environment

/-! ## Matching -/

namespace Pattern

/-- A demand with the value at other positions. -/
def Demand.relocate (φ : Nat → Nat) : Demand → Demand
  | bind hole value => bind hole (value.relocate φ)
  | refuse => refuse
  | compare => compare

variable {options : MatchOptions} {c : Category}

theorem demand_relocate (p n : Tree c) : demand options p (n.relocate φ) = (demand options p n).relocate φ := by
  cases p with
  | stmtHole index multiLine =>
    simp only [demand, Tree.kind_relocate]
    split <;> rfl
  | nameHole index => cases n <;> rfl
  | exprHead e =>
    cases e with
    | exprHole index orDeclaration => cases orDeclaration <;> cases n <;> rfl
    | _ => rfl
  | _ => rfl

theorem Binds.relocate {p n : Tree c} {k : Hole} {v : Bound} (h : Binds options p n k v) :
    Binds options p (n.relocate φ) k (v.relocate φ) := by
  apply binds_of_demand
  rw [demand_relocate, demand_of_binds h]
  rfl

/-- Parts are matched at other positions if each of them is. -/
theorem chain_relocate {ps ns : List Phrase}
    (h : ∀ p ∈ ps, ∀ (n : Tree p.1) (env env' : Environment),
      Matches options p.2 (n.relocate φ) (env.relocate φ) env' ↔
        ∃ env₀, Matches options p.2 n env env₀ ∧ env' = env₀.relocate φ)
    {env env' : Environment} :
    Chain options ps (ns.map (relocatePhrase φ)) (env.relocate φ) env' ↔
      ∃ env₀, Chain options ps ns env env₀ ∧ env' = env₀.relocate φ := by
  induction ps generalizing ns env with
  | nil =>
    constructor
    · intro hchain
      cases ns with
      | nil =>
        cases hchain
        exact ⟨env, .nil, rfl⟩
      | cons n ns => cases hchain
    · rintro ⟨env₀, hchain, rfl⟩
      cases hchain
      exact .nil
  | cons p ps ih =>
    have hps := fun q (hq : q ∈ ps) => h q (List.mem_cons_of_mem _ hq)
    constructor
    · intro hchain
      cases ns with
      | nil => cases hchain
      | cons n ns =>
        cases hchain with
        | cons hmatch hchain =>
          obtain ⟨mid, hmid, rfl⟩ := (h _ List.mem_cons_self n.2 env _).mp hmatch
          obtain ⟨env₀, hrest, rfl⟩ := (ih hps).mp hchain
          exact ⟨env₀, .cons hmid hrest, rfl⟩
    · rintro ⟨env₀, hchain, rfl⟩
      cases hchain with
      | cons hmid hchain =>
        exact .cons ((h _ List.mem_cons_self _ env _).mpr ⟨_, hmid, rfl⟩)
          ((ih hps).mpr ⟨env₀, hchain, rfl⟩)

/-- A pattern matches a tree at other positions just if it matches the tree. -/
theorem matches_relocate (p n : Tree c) (env env' : Environment) :
    Matches options p (n.relocate φ) (env.relocate φ) env' ↔
      ∃ env₀, Matches options p n env env₀ ∧ env' = env₀.relocate φ := by
  induction p using Tree.induction_on_parts generalizing env env' with
  | step c p ih =>
    have hdemand : demand options p (n.relocate φ) = (demand options p n).relocate φ := demand_relocate p n
    cases hd : demand options p n with
    | refuse =>
      rw [hd] at hdemand
      constructor
      · intro h
        exact absurd h (not_matches_of_refuse hdemand)
      · rintro ⟨_, h, -⟩
        exact absurd h (not_matches_of_refuse hd)
    | compare =>
      rw [hd] at hdemand
      rw [matches_of_compare hdemand, Tree.sameForm_relocate_right, Tree.parts_relocate,
        chain_relocate fun q hq n env env' => ih q hq n env env']
      constructor
      · rintro ⟨hform, env₀, hchain, heq⟩
        exact ⟨env₀, (matches_of_compare hd).mpr ⟨hform, hchain⟩, heq⟩
      · rintro ⟨env₀, hmatch, heq⟩
        obtain ⟨hform, hchain⟩ := (matches_of_compare hd).mp hmatch
        exact ⟨hform, env₀, hchain, heq⟩
    | bind k v =>
      have hb := binds_of_demand hd
      rw [matches_of_binds hb.relocate, Environment.get?_relocate]
      constructor
      · rintro (⟨w', hw', hsame, rfl⟩ | ⟨hnone, rfl⟩)
        · obtain ⟨w, hw, rfl⟩ := Option.map_eq_some_iff.mp hw'
          rw [Bound.same_relocate] at hsame
          exact ⟨env, (matches_of_binds hb).mpr (.inl ⟨w, hw, hsame, rfl⟩), rfl⟩
        · rw [Option.map_eq_none_iff] at hnone
          exact ⟨env.insert k v, (matches_of_binds hb).mpr (.inr ⟨hnone, rfl⟩), env.insert_relocate k v⟩
      · rintro ⟨env₀, hmatch, rfl⟩
        rcases (matches_of_binds hb).mp hmatch with ⟨w, hw, hsame, rfl⟩ | ⟨hnone, rfl⟩
        · exact .inl ⟨w.relocate φ, by rw [hw]; rfl, by rw [Bound.same_relocate, hsame], rfl⟩
        · exact .inr ⟨by rw [hnone]; rfl, (env.insert_relocate k v).symm⟩

theorem matchTree_relocate (p n : Tree c) :
    matchTree options p (n.relocate φ) = (matchTree options p n).map (Environment.relocate φ) := by
  ext env
  rw [matchTree_eq_some, Option.map_eq_some_iff]
  refine (matches_relocate p n {} env).trans (exists_congr fun env₀ => ?_)
  rw [matchTree_eq_some, eq_comm]

/-! ## Filling -/

/-- A filled template is the other one moved, and an error is the other one's. -/
def fillTransport : Tree.Transport (Except FillError) where
  rel f x x' := x' = x.map f
  pure _ := rfl
  bind := by
    rintro α β f g x _ k k' rfl hk
    cases x with
    | error e => rfl
    | ok a => exact hk a

theorem adopted?_relocate (env : Environment) (inner : Block) :
    adopted? (env.relocate φ) (inner.relocate φ) = (adopted? env inner).map (Tree.relocate φ) := by
  unfold adopted?
  rw [Tree.statements_relocate]
  match inner.statements with
  | [] => rfl
  | s :: t :: ss => cases s <;> rfl
  | [s] =>
    cases s with
    | stmtHole index multiLine =>
      have hget := env.get?_relocate (φ := φ) ⟨.statement, index⟩
      rw [show [Tree.stmtHole index multiLine].map (Tree.relocate φ) = [Tree.stmtHole index multiLine] from rfl]
      simp only [hget]
      cases env.get? ⟨.statement, index⟩ with
      | none => rfl
      | some v =>
        cases v with
        | stmt bound => cases bound <;> rfl
        | _ => rfl
    | _ => rfl

/-- What filling does at a phrase, given what it does below and in the declarations of loop heads. -/
theorem fillHook_relocate {env : Environment} {depth : Nat} (t : Tree c)
    {walk walk' : Unit → Except FillError (Tree c)} (hwalk : walk' () = (walk ()).map (Tree.relocate φ))
    (hdecl : ∀ n < depth, ∀ d : VarDecl, (d.relocate φ).visit (fillHook (env.relocate φ) n) =
      (d.visit (fillHook env n)).map (Tree.relocate φ)) :
    fillHook (env.relocate φ) depth c (t.relocate φ) walk' =
      (fillHook env depth c t walk).map (Tree.relocate φ) := by
  cases hhole : t.hole? with
  | some h =>
    have hhole' : (t.relocate φ).hole? = some h := by rw [Tree.hole?_relocate, hhole]
    rw [fillHook_hole hhole, fillHook_hole hhole', Environment.get?_relocate]
    cases env.get? h with
    | none => rfl
    | some v =>
      simp only [Option.map_some, Bound.at?_relocate]
      cases v.at? c <;> rfl
  | none =>
    cases t with
    | blockStmt inner =>
      refine fillHook_block.trans ?_
      rw [adopted?_relocate, fillHook_block]
      cases adopted? env inner with
      | none => exact hwalk
      | some bound => rfl
    | exprHead e =>
      cases e with
      | exprHole index orDeclaration =>
        refine fillHook_head.trans ?_
        rw [fillHook_head, Environment.get?_relocate]
        rcases env.get? ⟨.expression, index⟩ with _ | (_ | _ | _ | d)
        case some.decl =>
          cases depth with
          | zero => rfl
          | succ depth =>
            exact fillTransport.bind (hdecl depth (Nat.lt_succ_self depth) d) fun d => rfl
        all_goals exact hwalk
      | _ => unfold fillHook; exact hwalk
    | _ => first | (unfold fillHook; exact hwalk) | cases hhole

theorem visit_relocate (env : Environment) (depth : Nat) (t : Tree c) :
    (t.relocate φ).visit (fillHook (env.relocate φ) depth) =
      (t.visit (fillHook env depth)).map (Tree.relocate φ) := by
  induction depth using Nat.strongRecOn generalizing c with
  | ind depth hdepth =>
    induction t using Tree.induction_on_parts with
    | step c t ih =>
      refine fillHook_relocate t ?_ fun n hn d => hdepth n hn d
      exact fillTransport.descend t fun p hp => ih p (Tree.mem_parts_of_visited hp)

/-- A template and values at other positions. -/
theorem fillTree_relocate (env : Environment) (t : Tree c) :
    fillTree (env.relocate φ) (t.relocate φ) = (fillTree env t).map (Tree.relocate φ) := by
  unfold fillTree
  rw [Environment.size_relocate]
  exact visit_relocate env env.size t

/-- What is made of a match. -/
theorem make_relocate (options : MatchOptions) {d : Category} (p n : Tree c) (t : Tree d) :
    (do return fillTree (← matchTree options p (n.relocate φ)) (t.relocate φ)) =
      (do return fillTree (← matchTree options p n) t : Option _).map (Except.map (Tree.relocate φ)) := by
  rw [matchTree_relocate]
  cases matchTree options p n with
  | none => rfl
  | some env => exact congrArg some (fillTree_relocate env t)

/-- A template at other positions. -/
def relocate (φ : Nat → Nat) : Pattern → Pattern
  | expr t => expr (t.relocate φ)
  | stmt t => stmt (t.relocate φ)

theorem isExpr_relocate (t : Pattern) : (t.relocate φ).isExpr = t.isExpr := by
  cases t <;> rfl

theorem relocate_congr {ψ : Nat → Nat} {t : Pattern} (h : ∀ i, some i ∈ t.phrase.2.ids → φ i = ψ i) :
    t.relocate φ = t.relocate ψ := by
  cases t with
  | expr t => exact congrArg expr (Tree.relocate_congr h)
  | stmt t => exact congrArg stmt (Tree.relocate_congr h)

end Pattern

/-! ## Rules -/

namespace Rule

/-- A rule with its replacement at other positions. -/
def relocate (φ : Nat → Nat) (r : Rule) : Rule :=
  { r with
    replacement := r.replacement.relocate φ
    agree := by rw [Pattern.isExpr_relocate, r.agree] }

variable (r : Rule) (options : MatchOptions)

theorem applyToStmt?_relocate (s : Stmt) :
    (r.relocate φ).applyToStmt? options (s.relocate φ) =
      (r.applyToStmt? options s).map (Except.map (Tree.relocate φ)) := by
  obtain ⟨name, pattern, replacement, agree⟩ := r
  cases pattern with
  | expr p => rfl
  | stmt p =>
    cases replacement with
    | expr t => cases agree
    | stmt t =>
      cases p with
      | sequence inner => rfl
      | _ => exact Pattern.make_relocate options _ s t

theorem applyToList?_relocate (ss : List Stmt) :
    (r.relocate φ).applyToList? options (ss.map (Tree.relocate φ)) =
      (r.applyToList? options ss).map (Except.map (Tree.relocate φ)) := by
  obtain ⟨name, pattern, replacement, agree⟩ := r
  cases pattern with
  | expr p => rfl
  | stmt p =>
    cases replacement with
    | expr t => cases agree
    | stmt t =>
      cases p with
      | sequence inner =>
        have hmake := Pattern.make_relocate (φ := φ) options (Tree.ofList inner.statements)
          (Tree.ofList ss) t
        rw [Tree.ofList_relocate] at hmake
        exact hmake
      | _ => rfl

theorem applyToExpr?_relocate (e : Expr) :
    (r.relocate φ).applyToExpr? options (e.relocate φ) =
      (r.applyToExpr? options e).map (Except.map (Tree.relocate φ)) := by
  obtain ⟨name, pattern, replacement, agree⟩ := r
  cases pattern with
  | stmt p => rfl
  | expr p =>
    cases replacement with
    | stmt t => cases agree
    | expr t => exact Pattern.make_relocate options p e t

end Rule

/-- A table of rules with their replacements at other positions. -/
def RuleTable.relocate (φ : Nat → Nat) (table : RuleTable) : RuleTable :=
  { table with rules := table.rules.map (Rule.relocate φ) }

end Unminify
