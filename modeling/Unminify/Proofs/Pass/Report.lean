import Unminify.Proofs.Pass.Sequences

/-!
# What a pass reports

A pass counts what it does to the program, and whoever calls it again and again stops when there was
nothing to count. So a report of no change must be the truth: the program is then what it was, down to
the positions of its identifiers (`truthful_pass`).

Everything that a pass does is either a step that is counted or a step that gives back what it was given.
A rule whose replacement is the same as what it replaces is a step of the second kind, and so is a name
that a binding has anyway. Only splicing is neither: it takes sequences out of statement lists without a
word. So there must be none in the lists of the program to begin with; a split, which makes one, is counted.

* `Pass.brings_sweep_eq`, `Pass.brings_simplifyStmt_eq`, `Pass.brings_applyToExpr_eq` — what is not
  counted gives back what it was given;
* `Pass.eq_of_walk` — so does a walk that counts nothing.
-/

namespace Unminify

/-- No statement list in a tree holds a sequence. A body may be one. -/
def Tree.ListsSpliced {c : Category} (t : Tree c) : Prop :=
  t.Everywhere fun q => q.1 = .block → q.2.holdsSequence = false

instance {c : Category} (t : Tree c) : Decidable t.ListsSpliced :=
  inferInstanceAs (Decidable (t.Everywhere fun q => q.1 = .block → q.2.holdsSequence = false))

namespace Pass

open Tree

/-! ## Steps that are counted -/

/-- A state in which a change has been counted, or the pass has stopped. -/
def Noted (s : State) : Prop := s.error ≠ Option.none ∨ s.stats.changed = true

/-- Watches for whatever is counted; nothing else may change in the state. -/
def forChanges : Watch where
  Seen := State
  view := id
  alarm := Noted
  atStop _ h := .inl h

variable {table : RuleTable}

theorem brings_get : forChanges.Brings get fun _ => True := fun _ => .inl ⟨rfl, trivial⟩

theorem brings_count {f : Stats → Stats} (hf : ∀ s, (f s).changed = true) {Q : Unit → Prop} :
    forChanges.Brings (count f) Q :=
  Watch.brings_of_alarm fun s => .inr (hf s.stats)

theorem changed_iff {s : Stats} : s.changed = true ↔ 0 < s.total + s.renamed := by
  rw [Stats.changed, Bool.or_eq_true, decide_eq_true_iff, decide_eq_true_iff]
  omega

theorem changed_applied (s : Stats) (name : String) :
    ({ s with applied := s.applied ++ [name] } : Stats).changed = true :=
  changed_iff.mpr (by simp only [Stats.total, List.length_append, List.length_singleton]; omega)

theorem changed_split (s : Stats) : ({ s with split := s.split + 1 } : Stats).changed = true :=
  changed_iff.mpr (by simp only [Stats.total]; omega)

theorem changed_coerced (s : Stats) : ({ s with coerced := s.coerced + 1 } : Stats).changed = true :=
  changed_iff.mpr (by simp only [Stats.total]; omega)

theorem changed_renamed (s : Stats) : ({ s with renamed := s.renamed + 1 } : Stats).changed = true :=
  changed_iff.mpr (Nat.add_pos_right _ (Nat.succ_pos _))

/-- What comes after a step that is counted need not be looked at. -/
theorem brings_after_count {α : Type} {f : Stats → Stats} (hf : ∀ s, (f s).changed = true)
    {x : Pass α} (hx : forChanges.Brings x fun _ => True) {Q : α → Prop} :
    forChanges.Brings (count f >>= fun _ => x) Q :=
  (brings_count hf (Q := fun _ => False)).bind fun _ => hx.imp fun _ _ => False.elim

theorem brings_after_fail {α : Type} (e : PassError) (a : α) {Q : α → Prop} :
    forChanges.Brings (fail e >>= fun _ => pure a) Q :=
  (Watch.brings_fail e (Q := fun _ => False)).bind fun _ => Watch.brings_pure False.elim

/-! ## Steps that are not -/

/-- A sweep that counts nothing leaves the list as it is. -/
theorem brings_sweep_eq (ss : List Stmt) : forChanges.Brings (sweep table ss) fun ss' => ss' = ss := by
  fun_induction sweep table ss with
  | case1 => exact Watch.brings_pure rfl
  | case2 s rest _ ih => exact ih.bind fun ss' => Watch.brings_pure (congrArg (s :: ·))
  | case3 s rest m _ cause _ => exact brings_after_fail _ _
  | case4 s rest m _ replacement _ new _ ih =>
    exact ih.bind fun ss' => Watch.brings_pure (congrArg (s :: ·))
  | case5 s rest m _ replacement _ new _ _ => exact brings_after_fail _ _
  | case6 s rest m _ replacement _ new _ n _ ih =>
    refine brings_after_count (fun s => changed_applied s m.rule.name) ?_
    exact ih.bind fun _ => Watch.brings_pure fun _ => trivial

/-- A function is renamed along with its binding, and that is counted. -/
theorem brings_disambiguate_function {isAsync isGenerator isAsync' isGenerator' : Bool}
    {declared : Name} {params params' : Tree (.list .binder)} {inner inner' : Block} {proposed : String}
    {id : Option Nat} :
    forChanges.Brings (disambiguate
        (.functionStmt (.function isAsync isGenerator (.some declared) params inner))
        (.functionStmt (.function isAsync' isGenerator' (.some (.ident proposed id)) params' inner')))
      fun _ => True := by
  refine brings_get.bind fun s => ?_
  dsimp only
  split
  · exact brings_after_fail _ _
  · rename_i bound b _
    split
    · exact Watch.brings_of_alarm fun s => .inr (changed_renamed s.stats)
    · exact Watch.brings_pure fun _ => trivial

theorem brings_disambiguate (old new : Stmt) :
    forChanges.Brings (disambiguate old new) fun _ => True := by
  cases old, new using disambiguate_cases with
  | other old new h =>
    rw [h]
    exact Watch.brings_pure trivial
  | function => exact brings_disambiguate_function

/-- Unless something is counted, no rule changes a statement. -/
theorem brings_applyToStmt_eq (s : Stmt) : forChanges.Brings (applyToStmt table s) fun s' => s' = s := by
  unfold applyToStmt
  split
  · exact Watch.brings_pure rfl
  · exact brings_after_fail _ _
  · rename_i r s' _
    refine (brings_disambiguate s s').bind fun new => ?_
    split
    · exact Watch.brings_pure fun _ => rfl
    · split
      · exact Watch.brings_pure fun _ => rfl
      · exact brings_after_count (fun s => changed_applied s r.name) (Watch.brings_pure trivial)

/-- Nor does it change an expression. -/
theorem brings_applyToExpr_eq (e : Expr) : forChanges.Brings (applyToExpr table e) fun e' => e' = e := by
  unfold applyToExpr
  split
  · exact Watch.brings_pure rfl
  · exact brings_after_fail _ _
  · rename_i r _ _
    split
    · exact Watch.brings_pure rfl
    · exact brings_after_count (fun s => changed_applied s r.name) (Watch.brings_pure trivial)

theorem brings_simplifyStmt_eq (s : Stmt) :
    forChanges.Brings (simplifyStmt table s) fun s' => s' = s := by
  unfold simplifyStmt
  split
  · exact brings_after_count changed_split (Watch.brings_pure trivial)
  · exact brings_applyToStmt_eq _

/-! ## Walks that count nothing -/

/-- What a walk that counts nothing does to a phrase without sequences in its lists: it leaves it as it
is. -/
def Leaves (c : Category) (t u : Tree c) : Prop := t.ListsSpliced → u = t

theorem eq_of_related {ps us : List Phrase} (h : Related Leaves ps us)
    (hps : ∀ p ∈ ps, p.2.ListsSpliced) : us = ps := by
  induction h with
  | nil => rfl
  | cons hleaves _ ih =>
    obtain ⟨hp, hps⟩ := List.forall_mem_cons.mp hps
    rw [hleaves hp, ih hps]

theorem leaves_rebuild {c : Category} {t : Tree c} {us : List Phrase} (h : Related Leaves t.visited us) :
    Leaves c t (t.rebuild us) := by
  intro ht
  rw [eq_of_related h fun p hp => ht.part (mem_parts_of_visited hp), rebuild_visited]

/-- There is nothing to splice in a list without sequences. -/
theorem leaves_block {b : Block} {items : Tree (.list .stmt)}
    (h : Leaves _ (ofList b.statements) items) : Leaves .block b (blockOf (splice items.toList)) := by
  intro hb
  have hself : (blockOf b.statements).holdsSequence = false := (blockOf_statements b).symm ▸ hb.self rfl
  have hitems : (ofList b.statements).ListsSpliced :=
    Everywhere.part ((blockOf_statements b).symm ▸ hb) (p := ⟨_, ofList b.statements⟩) List.mem_cons_self
  rw [h hitems, toList_ofList, splice_eq_self, blockOf_statements]
  rintro _ hs inner rfl
  cases holdsSequence_blockOf.mp hself _ hs

/-- A body that is coerced is counted. -/
theorem brings_coerce_eq (s u : Stmt) : forChanges.Brings (Watch.coerce (.body u)) fun b =>
    Leaves .stmt s u → Leaves .body (.body s) b := by
  cases u with
  | sequence inner => exact brings_after_count changed_coerced (Watch.brings_pure trivial)
  | _ => exact Watch.brings_pure fun h hs => congrArg body (h (hs.part List.mem_cons_self))

theorem carries_leaves (table : RuleTable) : forChanges.Carries table Leaves where
  inPlace _ h := leaves_rebuild h
  block b := (brings_sweep_eq b.statements).imp fun _ hss _ => hss ▸ leaves_block
  body := brings_coerce_eq
  stmt s := (brings_simplifyStmt_eq s).imp fun _ hs _ => hs ▸ leaves_rebuild
  expr e := (brings_applyToExpr_eq e).imp fun _ he _ => he ▸ leaves_rebuild

/-- A walk that neither counts anything nor stops has changed nothing. -/
theorem eq_of_walk (table : RuleTable) (depth : Nat) {c : Category} {t : Tree c} (ht : t.ListsSpliced)
    {s : State} (h : ¬Noted ((walk table depth c t).run s).2) : (walk table depth c t).run s = (t, s) :=
  ((carries_leaves table).brings_walk depth c t s).elim (fun hs => Prod.ext (hs.2 ht) hs.1)
    fun hnoted => absurd hnoted h

/-- A result that reports no change is the program as it was. -/
def Truthful (p : Program) (result : Program × Except PassError Stats) : Prop :=
  ∀ stats, result.2 = .ok stats → stats.changed = false → result.1 = p

end Pass

namespace RuleTable

open Pass

theorem truthful_passTo (table : RuleTable) {p : Program} (hp : p.body.ListsSpliced) (depth : Nat) :
    Truthful p (table.passTo depth p) := by
  intro stats hok hchanged
  have hwalk := eq_of_walk table depth hp (s := { graph := p.scopeGraph })
  rw [passTo] at hok ⊢
  generalize (walk table depth .block p.body).run { graph := p.scopeGraph } = result at hok hwalk ⊢
  obtain ⟨body, s⟩ := result
  cases herror : s.error with
  | none =>
    rw [outcome_of_none herror] at hok ⊢
    cases hok
    have hquiet : ¬Noted s := by
      rintro (hstopped | hcounted)
      · exact hstopped herror
      · exact Bool.false_ne_true (hchanged.symm.trans hcounted)
    cases hwalk hquiet
    rw [ScopeGraph.fst_applyRenames, p.sound_and_housed.1.renamed_eq_self]
  | some e =>
    rw [outcome_of_some herror] at hok
    cases hok

/-- **A report of no change is the truth.** Whatever the rules, the settings of the matcher and the depth
to which replacements are followed: if no statement list of the program holds a sequence, and a pass
comes to its end and reports no change, then the program after it is the program before it, with the
positions of all identifiers. -/
theorem truthful_pass (table : RuleTable) {p : Program} (hp : p.body.ListsSpliced) :
    Truthful p (table.pass p) ∧ ∀ depth, Truthful p (table.passTo depth p) :=
  ⟨truthful_passTo table hp _, truthful_passTo table hp⟩

/-- The program
`function _interopRequireDefault(obj) { return obj && obj.__esModule ? obj : { default: obj }; }`
`if (a) { b; }`, where each identifier has its position. -/
def doneUse : Program :=
  let use (text : String) (n : Nat) : Expr := .identExpr (.ident text (some n))
  { body := Tree.blockOf [
      .functionStmt (.function false false (.some (.ident "_interopRequireDefault" (some 9)))
        (.ofList [.nameBinder (.ident "obj" (some 32))])
        (Tree.blockOf [.returnStmt (.some (.conditional
          (.binary .and (use "obj" 46)
            (.access false false (use "obj" 53) (.literal (.string "__esModule"))))
          (use "obj" 70)
          (.object (.ofList [.keyed (.nameKey "default") (use "obj" 87)]))))])),
      .ifStmt (use "a" 99) (.body (.blockStmt (Tree.blockOf [.exprStmt (use "b" 104)]))) .none] }

/-- The rules for helpers and for `if`s match here, but what they put in is the same as what was
there. -/
theorem truthful_pass_doneUse :
    let table : RuleTable := { rules := Builtin.all.map Builtin.rule ++ [Builtin.interopRule] }
    doneUse.body.ListsSpliced ∧ (table.pass doneUse).2 = .ok {} ∧ (table.pass doneUse).1 = doneUse := by
  intro table
  have hlists : doneUse.body.ListsSpliced := by decide +kernel
  have hok : (table.pass doneUse).2 = .ok {} := by decide +kernel
  exact ⟨hlists, hok, (truthful_pass table hlists).1 {} hok rfl⟩

/-- An empty sequence in a list goes away and is not counted. -/
example :
    let p : Program := ⟨Tree.blockOf [.sequence (Tree.blockOf [])]⟩
    let result := RuleTable.pass {} p
    result.2 = .ok {} ∧ result.1.body.statements.length < p.body.statements.length := by
  decide +kernel

end RuleTable

end Unminify
