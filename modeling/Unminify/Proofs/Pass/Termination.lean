import Mathlib.Order.WellFounded
import Unminify.Proofs.Pass.Walk

/-!
# When a pass ends

A walk goes on into what rules put in, so a table may keep it going for ever. Depth is the only bound
that a walk has: a pass *ends* if from some depth on the outcome no longer depends on the depth. A
pass that did not stop has ended (`ends_of_pass`).

`Leads` says where a walk can go from a phrase, and whether a rule has been applied there. A walk that
does not end goes from phrase to phrase without end, and since phrases are finite it is rules that
keep it going (`ends_or_cascades`): there is a `Cascade`, in which again and again a rule is applied
inside what an earlier application has put in.

Nothing in the making of a table excludes cascades (`not_ends_nest`). `Unminify.Proofs.Pass.Grading`
has a condition on the rules that does.
-/

namespace Unminify

namespace Pass

/-! ## Where a walk goes -/

/-- The phrases inside another one that a walk acts on next. -/
inductive Inside : {c : Category} → Tree c → Phrase → Prop
  | part {c : Category} {t : Tree c} {q : Phrase} :
    q ∈ t.visited → isActedOn q.1 = true → Inside t q
  | within {c : Category} {t : Tree c} {p q : Phrase} :
    p ∈ t.visited → isActedOn p.1 = false → Inside p.2 q → Inside t q

/-- A replacement, and the same under the name that the pass gives it. -/
inductive Named : Stmt → Stmt → Prop
  | same (s : Stmt) : Named s s
  | renamed (isAsync isGenerator : Bool) (proposed name : String) (id id' : Option Nat)
      (params : Tree (.list .binder)) (inner : Block) :
    Named (.functionStmt (.function isAsync isGenerator (.some (.ident proposed id)) params inner))
      (.functionStmt (.function isAsync isGenerator (.some (.ident name id')) params inner))

/-- The next phrases that a walk may act on after a phrase; the flag says whether a rule has put them
there. -/
inductive Leads (table : RuleTable) : Bool → Phrase → Phrase → Prop
  | inward {c : Category} {t : Tree c} {q : Phrase} : Inside t q → Leads table false ⟨c, t⟩ q
  | split {parts : Tree (.list .expr)} {q : Phrase} :
    Inside (Tree.sequence (Tree.blockOf (parts.toList.map .exprStmt))) q →
      Leads table false ⟨.stmt, .exprStmt (.comma parts)⟩ q
  | expr {e e' : Expr} {r : Rule} {q : Phrase} :
    firstMatch? table (·.applyToExpr? table.options e) = some (r, .ok e') → e'.same e = false →
      Inside e' q → Leads table true ⟨.expr, e⟩ q
  | stmt {s s' s'' : Stmt} {r : Rule} {q : Phrase} :
    firstMatch? table (·.applyToStmt? table.options s) = some (r, .ok s') → Named s' s'' →
      s''.same s = false → Inside s'' q → Leads table true ⟨.stmt, s⟩ q
  | window {b : Block} {ss : List Stmt} {m : WindowMatch} {s s' : Stmt} :
    ss <:+ b.statements → windowAt? table ss = some m → m.outcome = .ok s → s' ∈ members s →
      Leads table true ⟨.block, b⟩ ⟨.stmt, s'⟩
  /-- A rule that spans nothing puts in statements and is left with the list it had. -/
  | insertion {b : Block} {ss : List Stmt} {m : WindowMatch} {s : Stmt} :
    ss <:+ b.statements → windowAt? table ss = some m → m.length = 0 → m.outcome = .ok s →
      members s ≠ [] → Leads table true ⟨.block, b⟩ ⟨.block, b⟩

/-- A way through replacements without end. -/
structure Cascade (table : RuleTable) (first : Phrase) where
  phrase : Nat → Phrase
  applied : Nat → Bool
  start : phrase 0 = first
  leads : ∀ n, Leads table (applied n) (phrase n) (phrase (n + 1))
  endless : ∀ n, ∃ m ≥ n, applied m = true

/-! ## Steps that do not depend on depth -/

section

variable {α β : Type}

/-- A step that stops only for reasons that are allowed, with what is known of its result. -/
def Meets (ok : Option PassError → Prop) (x : Pass α) (Q : α → Prop) : Prop :=
  ∀ s, ok s.error → ok (x.run s).2.error ∧ Q (x.run s).1

variable {ok : Option PassError → Prop} {x : Pass α} {f : α → Pass β} {P Q : α → Prop} {S : β → Prop}

theorem meets_pure {a : α} (h : Q a) : Meets ok (pure a) Q := fun _ hs => ⟨hs, h⟩

theorem Meets.bind (hx : Meets ok x P) (hf : ∀ a, P a → Meets ok (f a) S) : Meets ok (x >>= f) S :=
  fun s hs => hf _ (hx s hs).2 _ (hx s hs).1

theorem Meets.imp (hx : Meets ok x P) (h : ∀ a, P a → Q a) : Meets ok x Q :=
  fun s hs => ⟨(hx s hs).1, h _ (hx s hs).2⟩

theorem meets_count (g : Stats → Stats) : Meets ok (count g) fun _ => True := fun _ hs => ⟨hs, trivial⟩

theorem meets_get : Meets ok get fun _ => True := fun _ hs => ⟨hs, trivial⟩

theorem meets_modify {g : State → State} (hg : ∀ s, (g s).error = s.error) :
    Meets ok (modify g) fun _ => True :=
  fun s hs => ⟨(hg s).symm ▸ hs, trivial⟩

theorem meets_fail {e : PassError} (he : ok (some e)) : Meets ok (fail e) fun _ => True := by
  intro s hs
  refine ⟨?_, trivial⟩
  show ok (s.error <|> some e)
  cases herror : s.error with
  | none => exact he
  | some e' =>
    rw [herror] at hs
    exact hs

/-- A step that does not run out of depth, with what is known of its result. -/
def Gives (x : Pass α) (Q : α → Prop) : Prop := Meets (· ≠ some .endless) x Q

end

variable {table : RuleTable}

theorem meets_disambiguate_function {ok : Option PassError → Prop}
    (hok : ∀ name, ok (some (.undeclared name))) {isAsync isGenerator isAsync' isGenerator' : Bool}
    {declared : Name} {params params' : Tree (.list .binder)} {inner inner' : Block} {proposed : String}
    {id : Option Nat} :
    Meets ok (disambiguate
        (.functionStmt (.function isAsync isGenerator (.some declared) params inner))
        (.functionStmt (.function isAsync' isGenerator' (.some (.ident proposed id)) params' inner')))
      fun s => ∀ s', s = some s' → Named (.functionStmt
        (.function isAsync' isGenerator' (.some (.ident proposed id)) params' inner')) s' := by
  refine meets_get.bind fun s _ => ?_
  dsimp only
  split
  · exact (meets_fail (hok _)).bind fun _ _ => meets_pure nofun
  · rename_i bound b _
    have hnamed : ∀ s', some (Tree.functionStmt (.function isAsync' isGenerator'
        (.some (.ident (s.graph.freeName b proposed) (some bound))) params' inner')) = some s' →
        Named _ s' := fun s' h => by cases h; exact .renamed _ _ proposed _ id _ _ _
    split
    · refine (meets_modify ?_).bind fun _ _ => (meets_count _).bind fun _ _ => meets_pure hnamed
      exact fun _ => rfl
    · exact meets_pure hnamed

/-- A replacement is given a name only if it is a function with a name, and so is what it replaces. -/
theorem disambiguate_cases {motive : Stmt → Stmt → Prop}
    (other : ∀ old new, disambiguate old new = pure (some new) → motive old new)
    (function : ∀ (isAsync isGenerator : Bool) (declared : Name) (params : Tree (.list .binder))
      (inner : Block) (isAsync' isGenerator' : Bool) (proposed : String) (id : Option Nat)
      (params' : Tree (.list .binder)) (inner' : Block),
      motive (.functionStmt (.function isAsync isGenerator (.some declared) params inner))
        (.functionStmt (.function isAsync' isGenerator' (.some (.ident proposed id)) params' inner')))
    (old new : Stmt) : motive old new := by
  cases old with
  | functionStmt fn =>
    cases fn with
    | function isAsync isGenerator declared params inner =>
      cases declared with
      | none => exact other _ new rfl
      | some declared =>
        cases new with
        | functionStmt fn' =>
          cases fn' with
          | function isAsync' isGenerator' name' params' inner' =>
            cases name' with
            | none => exact other _ _ rfl
            | some name' =>
              cases name' with
              | nameHole _ => exact other _ _ rfl
              | ident proposed id' => exact function _ _ _ _ _ _ _ _ _ _ _
        | _ => exact other _ _ rfl
  | _ => exact other _ new rfl

/-- A replacement keeps everything but its name. -/
theorem meets_disambiguate {ok : Option PassError → Prop} (hok : ∀ name, ok (some (.undeclared name)))
    (old new : Stmt) :
    Meets ok (disambiguate old new) fun s => ∀ s', s = some s' → Named new s' := by
  cases old, new using disambiguate_cases with
  | other old new h =>
    rw [h]
    exact meets_pure fun s' h => by cases h; exact .same new
  | function => exact meets_disambiguate_function hok

/-- A statement stays as it is, or a rule matches it and gives something else. -/
theorem meets_applyToStmt {ok : Option PassError → Prop} (hok : ∀ name, ok (some (.undeclared name)))
    {s : Stmt} (hfill : ∀ r cause,
      firstMatch? table (·.applyToStmt? table.options s) = some (r, .error cause) →
        ok (some (.fill r.name cause))) :
    Meets ok (applyToStmt table s) fun s'' => s'' = s ∨ ∃ r s',
      firstMatch? table (·.applyToStmt? table.options s) = some (r, .ok s') ∧ Named s' s'' ∧
        s''.same s = false := by
  unfold applyToStmt
  split
  · exact meets_pure (.inl rfl)
  · rename_i r cause hfirst
    exact (meets_fail (hfill r cause hfirst)).bind fun _ _ => meets_pure (.inl rfl)
  · rename_i r s' hfirst
    refine (meets_disambiguate hok s s').bind fun new hnew => ?_
    split
    · exact meets_pure (.inl rfl)
    · rename_i s''
      split
      · exact meets_pure (.inl rfl)
      · rename_i hsame
        refine (meets_count _).bind fun _ _ => meets_pure (.inr ⟨r, s', hfirst, hnew s'' rfl, ?_⟩)
        exact Bool.eq_false_iff.mpr hsame

/-- An expression stays as it is, or a rule matches it and gives something else. -/
theorem meets_applyToExpr {ok : Option PassError → Prop} {e : Expr} (hfill : ∀ r cause,
      firstMatch? table (·.applyToExpr? table.options e) = some (r, .error cause) →
        ok (some (.fill r.name cause))) :
    Meets ok (applyToExpr table e) fun e' => e' = e ∨ ∃ r,
      firstMatch? table (·.applyToExpr? table.options e) = some (r, .ok e') ∧ e'.same e = false := by
  unfold applyToExpr
  split
  · exact meets_pure (.inl rfl)
  · rename_i r cause hfirst
    exact (meets_fail (hfill r cause hfirst)).bind fun _ _ => meets_pure (.inl rfl)
  · rename_i r e' hfirst
    split
    · exact meets_pure (.inl rfl)
    · rename_i hsame
      refine (meets_count _).bind fun _ _ => meets_pure (.inr ⟨r, hfirst, ?_⟩)
      exact Bool.eq_false_iff.mpr hsame

/-- What the step at a statement makes of it: the same statement, the operands of a comma expression, or
what the first rule that matches puts in. -/
inductive StepsTo (table : RuleTable) : Stmt → Stmt → Prop
  | same (s : Stmt) : StepsTo table s s
  | split (parts : Tree (.list .expr)) :
    StepsTo table (.exprStmt (.comma parts)) (.sequence (Tree.blockOf (parts.toList.map .exprStmt)))
  | applied {s s' s'' : Stmt} {r : Rule} :
    firstMatch? table (·.applyToStmt? table.options s) = some (r, .ok s') → Named s' s'' →
      s''.same s = false → StepsTo table s s''

theorem meets_simplifyStmt {ok : Option PassError → Prop} (hok : ∀ name, ok (some (.undeclared name)))
    {s : Stmt} (hfill : ∀ r cause,
      firstMatch? table (·.applyToStmt? table.options s) = some (r, .error cause) →
        ok (some (.fill r.name cause))) :
    Meets ok (simplifyStmt table s) (StepsTo table s) := by
  unfold simplifyStmt
  split
  · exact (meets_count _).bind fun _ _ => meets_pure (.split _)
  · refine (meets_applyToStmt hok hfill).imp ?_
    rintro s'' (rfl | ⟨r, s', hfirst, hnamed, hsame⟩)
    · exact .same _
    · exact .applied hfirst hnamed hsame

/-- What a walk acts on after the step at a statement. -/
theorem gives_simplifyStmt (s : Stmt) :
    Gives (simplifyStmt table s) fun s' => ∀ q, Inside s' q → ∃ applied, Leads table applied ⟨_, s⟩ q := by
  refine (meets_simplifyStmt (fun _ => nofun) fun _ _ _ => nofun).imp fun s' hs' q hq => ?_
  cases hs' with
  | same => exact ⟨_, .inward hq⟩
  | split parts => exact ⟨_, .split hq⟩
  | applied hfirst hnamed hsame => exact ⟨_, .stmt hfirst hnamed hsame hq⟩

/-- A statement of a list, or one that a rule puts into the list. -/
def SweptFrom (table : RuleTable) (ss : List Stmt) (s : Stmt) : Prop :=
  s ∈ ss ∨ ∃ rest m s',
    rest <:+ ss ∧ windowAt? table rest = some m ∧ m.outcome = .ok s' ∧ s ∈ members s'

theorem SweptFrom.mono {rest ss : List Stmt} (hrest : rest <:+ ss) {s : Stmt}
    (h : SweptFrom table rest s) : SweptFrom table ss s := by
  rcases h with hs | ⟨rest', m, s', hrest', hm⟩
  · exact .inl (hrest.mem hs)
  · exact .inr ⟨rest', m, s', hrest'.trans hrest, hm⟩

/-- The reasons for which a sweep over a statement list may stop are allowed. -/
structure Permits (ok : Option PassError → Prop) (table : RuleTable) (ss : List Stmt) : Prop where
  fill : ∀ rest m cause, rest <:+ ss → windowAt? table rest = some m → m.outcome = .error cause →
    ok (some (.fill m.rule.name cause))
  /-- A rule that spans nothing puts something in. -/
  insertion : ∀ rest m s, rest <:+ ss → windowAt? table rest = some m → m.outcome = .ok s →
    members s ≠ [] → m.length = 0 → ok (some .endless)

theorem Permits.mono {ok : Option PassError → Prop} {rest ss : List Stmt} (hrest : rest <:+ ss)
    (h : Permits ok table ss) : Permits ok table rest where
  fill rest' m cause hrest' := h.fill rest' m cause (hrest'.trans hrest)
  insertion rest' m s hrest' := h.insertion rest' m s (hrest'.trans hrest)

/-- What a sweep leaves has been in the list, or a rule has put it there. -/
theorem meets_sweep {ok : Option PassError → Prop} {ss : List Stmt} (hss : Permits ok table ss) :
    Meets ok (sweep table ss) fun ss' => ∀ s ∈ ss', SweptFrom table ss s := by
  have hcons : ∀ {s : Stmt} {rest ss' : List Stmt}, (∀ t ∈ ss', SweptFrom table rest t) →
      ∀ t ∈ s :: ss', SweptFrom table (s :: rest) t := by
    intro s rest ss' hss' t ht
    rcases List.mem_cons.mp ht with rfl | ht
    · exact .inl List.mem_cons_self
    · exact (hss' t ht).mono (List.suffix_cons s rest)
  fun_induction sweep table ss with
  | case1 => exact meets_pure fun s hs => .inl hs
  | case2 s rest _ ih =>
    exact (ih (hss.mono (List.suffix_cons s rest))).bind fun ss' hss' => meets_pure (hcons hss')
  | case3 s rest m hm cause hcause =>
    have hok := hss.fill _ m cause List.suffix_rfl hm hcause
    exact (meets_fail hok).bind fun _ _ => meets_pure fun s hs => .inl hs
  | case4 s rest m _ replacement _ new _ ih =>
    exact (ih (hss.mono (List.suffix_cons s rest))).bind fun ss' hss' => meets_pure (hcons hss')
  | case5 s rest m hm replacement houtcome new hsame hlength =>
    have hok := hss.insertion _ m replacement List.suffix_rfl hm houtcome (fun hnew => hsame (by
      rw [hlength, show new = [] from hnew]
      rfl)) hlength
    exact (meets_fail hok).bind fun _ _ => meets_pure fun s hs => .inl hs
  | case6 s rest m hm replacement houtcome new _ n hlength ih =>
    have hdrop : rest.drop n <:+ s :: rest := (List.drop_suffix n rest).trans (List.suffix_cons s rest)
    refine (meets_count _).bind fun _ _ => (ih (hss.mono hdrop)).bind fun ss' hss' => ?_
    refine meets_pure fun t ht => ?_
    rcases List.mem_append.mp ht with ht | ht
    · exact .inr ⟨s :: rest, m, replacement, List.suffix_rfl, hm, houtcome, ht⟩
    · exact (hss' t ht).mono hdrop

/-- A sweep comes to its end if no rule that spans nothing puts anything in. -/
theorem gives_sweep {ss : List Stmt} (hwindow : ∀ rest m s, rest <:+ ss →
      windowAt? table rest = some m → m.outcome = .ok s → members s ≠ [] → m.length ≠ 0) :
    Gives (sweep table ss) fun ss' => ∀ s ∈ ss', SweptFrom table ss s :=
  meets_sweep {
    fill := fun _ _ _ _ _ _ => nofun
    insertion := fun rest m s hrest hm houtcome hnew hlength =>
      absurd hlength (hwindow rest m s hrest hm houtcome hnew) }

/-! ## Walks that settle -/

section

variable {α β : Type}

/-- From some depth on the outcome does not depend on the depth, and depth was not what stopped it. -/
def SettlesFrom (x : Nat → Pass α) (s : State) : Prop :=
  ∃ r, (∃ d, ∀ d' ≥ d, (x d').run s = r) ∧ r.2.error ≠ some .endless

/-- The outcome settles, whatever the state. -/
def Settles (x : Nat → Pass α) : Prop := ∀ s, s.error ≠ some .endless → SettlesFrom x s

variable {x : Nat → Pass α} {f : Nat → α → Pass β}

theorem Gives.settles {x : Pass α} {Q : α → Prop} (hx : Gives x Q) : Settles fun _ => x :=
  fun s hs => ⟨x.run s, ⟨0, fun _ _ => rfl⟩, (hx s hs).1⟩

theorem Gives.bind_settles {x : Pass α} {Q : α → Prop} (hx : Gives x Q)
    (hf : ∀ a, Q a → Settles fun d => f d a) : Settles fun d => x >>= f d :=
  fun s hs => hf _ (hx s hs).2 _ (hx s hs).1

theorem Settles.bind (hx : Settles x) (hf : ∀ a, Settles fun d => f d a) :
    Settles fun d => x d >>= f d := by
  intro s hs
  obtain ⟨⟨a, s'⟩, ⟨d, hd⟩, hs'⟩ := hx s hs
  obtain ⟨r, ⟨d', hd'⟩, hr⟩ := hf a s' hs'
  refine ⟨r, ⟨max d d', fun n hn => ?_⟩, hr⟩
  rw [StateT.run_bind, hd n (le_trans (le_max_left d d') hn)]
  exact hd' n (le_trans (le_max_right d d') hn)

theorem Settles.unlessStopped (a : α) (hx : Settles x) :
    Settles fun d => (do if ← stopped then return a else x d : Pass α) := by
  intro s hs
  have hrun : ∀ d, (do if ← stopped then return a else x d : Pass α).run s =
      (if s.error.isSome = true then (pure a : Pass α) else x d).run s := fun _ => rfl
  cases hstopped : s.error.isSome with
  | true => exact ⟨(a, s), ⟨0, fun d _ => by rw [hrun, hstopped]; rfl⟩, hs⟩
  | false =>
    obtain ⟨r, ⟨d, hd⟩, hr⟩ := hx s hs
    refine ⟨r, ⟨d, fun n hn => ?_⟩, hr⟩
    rw [hrun, hstopped]
    exact hd n hn

/-- What settles one level deeper settles. -/
theorem Settles.of_succ (h : Settles fun d => x (d + 1)) : Settles x := by
  intro s hs
  obtain ⟨r, ⟨d, hd⟩, hr⟩ := h s hs
  refine ⟨r, ⟨d + 1, fun n hn => ?_⟩, hr⟩
  obtain ⟨m, rfl⟩ := Nat.exists_eq_add_of_le' (le_trans (Nat.le_add_left 1 d) hn)
  exact hd m (Nat.le_of_succ_le_succ hn)

theorem settles_walkAll {c : Category} {f : Nat → (c : Category) → Tree c → Pass (Tree c)}
    {ps : List Phrase} (h : ∀ p ∈ ps, Settles fun d => f d p.1 p.2) (build : List Phrase → Tree c) :
    Settles fun d => Tree.walkAll (f d) ps build := by
  induction ps generalizing build with
  | nil => exact Gives.settles (Q := fun _ => True) (meets_pure trivial)
  | cons p ps ih =>
    refine (h p List.mem_cons_self).bind fun u => ?_
    exact ih (fun q hq => h q (List.mem_cons_of_mem _ hq)) _

end

/-- The walk of the parts of a phrase settles if the walks of the phrases inside do. -/
theorem settles_descend {c : Category} {t : Tree c}
    (h : ∀ q, Inside t q → Settles fun d => walk table d q.1 q.2) :
    Settles fun d => t.descend (hookAt table d) := by
  induction t using Tree.induction_on_parts with
  | step c t ih =>
    rw [funext fun d => Tree.descend_eq (hookAt table d) t]
    refine settles_walkAll (fun p hp => ?_) t.rebuild
    cases hacted : isActedOn p.1 with
    | true =>
      simp only [hookAt, hacted, if_true]
      exact h p (.part hp hacted)
    | false =>
      simp only [hookAt, hacted, Bool.false_eq_true, if_false]
      exact ih p (Tree.mem_parts_of_visited hp) fun q hq => h q (.within hp hacted hq)

theorem inside_ofList {c : Category} (hc : isActedOn c = true) {ts : List (Tree c)} {t : Tree c}
    (ht : t ∈ ts) : Inside (Tree.ofList ts) ⟨c, t⟩ := by
  induction ts with
  | nil => cases ht
  | cons t' ts ih =>
    rcases List.mem_cons.mp ht with rfl | ht
    · exact .part List.mem_cons_self hc
    · exact .within (List.mem_cons_of_mem _ List.mem_cons_self) rfl (ih ht)

theorem exists_of_inside_ofList {ss : List Stmt} {q : Phrase} (h : Inside (Tree.ofList ss) q) :
    ∃ s ∈ ss, q = ⟨.stmt, s⟩ := by
  induction ss with
  | nil =>
    cases h with
    | part hq _ => cases hq
    | within hp _ _ => cases hp
  | cons s ss ih =>
    have hvisited : ∀ p ∈ (Tree.ofList (s :: ss)).visited, p = ⟨_, s⟩ ∨ p = ⟨_, Tree.ofList ss⟩ :=
      fun p hp => (List.mem_cons.mp hp).imp_right List.mem_singleton.mp
    cases h with
    | part hq hacted =>
      rcases hvisited _ hq with rfl | rfl
      · exact ⟨s, List.mem_cons_self, rfl⟩
      · cases hacted
    | within hp hacted hq =>
      rcases hvisited _ hp with rfl | rfl
      · cases hacted
      · obtain ⟨s', hs', rfl⟩ := ih hq
        exact ⟨s', List.mem_cons_of_mem _ hs', rfl⟩

/-- A walk goes from a statement list to its statements. -/
theorem inside_blockOf {ss : List Stmt} {q : Phrase} :
    Inside (Tree.blockOf ss) q ↔ ∃ s ∈ ss, q = ⟨.stmt, s⟩ := by
  constructor
  · intro h
    cases h with
    | part hq hacted =>
      rw [List.mem_singleton.mp hq] at hacted
      cases hacted
    | within hp _ hq =>
      obtain rfl := List.mem_singleton.mp hp
      exact exists_of_inside_ofList hq
  · rintro ⟨s, hs, rfl⟩
    exact .within List.mem_cons_self rfl (inside_ofList rfl hs)

/-- A walk settles at a phrase if it does wherever it leads from there. -/
theorem settles_walk {p : Phrase}
    (h : ∀ q, (∃ applied, Leads table applied p q) → Settles fun d => walk table d q.1 q.2) :
    Settles fun d => walk table d p.1 p.2 := by
  obtain ⟨c, t⟩ := p
  have hinward : ∀ q, Inside t q → Settles fun d => walk table d q.1 q.2 :=
    fun q hq => h q ⟨_, .inward hq⟩
  cases c with
  | block =>
    by_cases hinsertion : ∃ ss m s, ss <:+ t.statements ∧ windowAt? table ss = some m ∧
        m.length = 0 ∧ m.outcome = .ok s ∧ members s ≠ []
    · obtain ⟨ss, m, s, hss, hm, hlength, houtcome, hnew⟩ := hinsertion
      exact h _ ⟨_, .insertion hss hm hlength houtcome hnew⟩
    have hwindow : ∀ rest m s, rest <:+ t.statements → windowAt? table rest = some m →
        m.outcome = .ok s → members s ≠ [] → m.length ≠ 0 :=
      fun rest m s hrest hm houtcome hnew hlength =>
        hinsertion ⟨rest, m, s, hrest, hm, hlength, houtcome, hnew⟩
    refine Settles.of_succ (Settles.unlessStopped _ ?_)
    refine (gives_sweep hwindow).bind_settles fun ss hss => ?_
    refine (settles_descend fun q hq => h q ?_).bind fun b => ?_
    · obtain ⟨s, hs, rfl⟩ := inside_blockOf.mp hq
      rcases hss s hs with hs | ⟨rest, m, s', hrest, hm, houtcome, hs⟩
      · refine ⟨_, .inward ?_⟩
        rw [← Tree.blockOf_statements t]
        exact inside_blockOf.mpr ⟨s, hs, rfl⟩
      · exact ⟨_, .window hrest hm houtcome hs⟩
    · exact Gives.settles (Q := fun _ => True) (meets_pure trivial)
  | stmt =>
    refine Settles.of_succ (Settles.unlessStopped _ ?_)
    exact (gives_simplifyStmt t).bind_settles fun s hs => settles_descend fun q hq => h q (hs q hq)
  | expr =>
    refine Settles.of_succ (Settles.unlessStopped _ ?_)
    refine Gives.bind_settles (meets_applyToExpr fun _ _ _ => nofun) ?_
    rintro e' (rfl | ⟨r, hfirst, hsame⟩)
    · exact settles_descend hinward
    · exact settles_descend fun q hq => h q ⟨_, .expr hfirst hsame hq⟩
  | body =>
    refine Settles.of_succ ((settles_descend hinward).bind fun b => ?_)
    refine Gives.settles (Q := fun _ => True) ?_
    split
    · exact (meets_count _).bind fun _ _ => meets_pure trivial
    · exact meets_pure trivial
  | _ => exact Settles.of_succ (settles_descend hinward)

/-! ## Depth that suffices -/

section

variable {α β : Type}

/-- A step that does what another one does where that one does not stop. -/
def Extends (x y : Pass α) : Prop := ∀ s, (x.run s).2.error = none → y.run s = x.run s

variable {x y : Pass α} {f g : α → Pass β}

theorem Extends.refl (x : Pass α) : Extends x x := fun _ _ => rfl

theorem Extends.bind (hx : Extends x y) (hf : ∀ a, Extends (f a) (g a)) (hkeeps : ∀ a, Keeps (f a)) :
    Extends (x >>= f) (y >>= g) := by
  intro s hs
  have hfirst : (x.run s).2.error = none := by
    refine Option.eq_none_iff_forall_ne_some.mpr fun e he => ?_
    cases hs.symm.trans (hkeeps _ _ e he)
  rw [StateT.run_bind, StateT.run_bind, hx s hfirst]
  exact hf _ _ hs

theorem Extends.unlessStopped (hx : Extends x y) (a : α) :
    Extends (do if ← stopped then return a else x) (do if ← stopped then return a else y) := by
  intro s hs
  replace hs : ((if s.error.isSome = true then (pure a : Pass α) else x).run s).2.error = none := hs
  show (if s.error.isSome = true then (pure a : Pass α) else y).run s =
    (if s.error.isSome = true then (pure a : Pass α) else x).run s
  split at hs
  · rename_i hstopped
    rw [if_pos hstopped, if_pos hstopped]
  · rename_i hstopped
    rw [if_neg hstopped, if_neg hstopped]
    exact hx s hs

theorem extends_walkAll {c : Category} {f g : (c : Category) → Tree c → Pass (Tree c)} {ps : List Phrase}
    (h : ∀ p ∈ ps, Extends (f p.1 p.2) (g p.1 p.2)) (hkeeps : ∀ p ∈ ps, Keeps (f p.1 p.2))
    (build : List Phrase → Tree c) : Extends (Tree.walkAll f ps build) (Tree.walkAll g ps build) := by
  induction ps generalizing build with
  | nil => exact .refl _
  | cons p ps ih =>
    have hrest : ∀ q ∈ ps, q ∈ p :: ps := fun q hq => List.mem_cons_of_mem _ hq
    refine (h p List.mem_cons_self).bind (fun u => ?_) fun u => ?_
    · exact ih (fun q hq => h q (hrest q hq)) (fun q hq => hkeeps q (hrest q hq)) _
    · exact keeps_walkAll (fun q hq => hkeeps q (hrest q hq)) _

end

theorem extends_descend {d d' : Nat}
    (h : ∀ c (t : Tree c), Extends (walk table d c t) (walk table d' c t)) {c : Category} (t : Tree c) :
    Extends (t.descend (hookAt table d)) (t.descend (hookAt table d')) := by
  induction t using Tree.induction_on_parts with
  | step c t ih =>
    rw [Tree.descend_eq, Tree.descend_eq]
    refine extends_walkAll (fun p hp => ?_) (fun p hp => ?_) t.rebuild
    · simp only [hookAt]
      split
      · exact h p.1 p.2
      · exact ih p (Tree.mem_parts_of_visited hp)
    · simp only [hookAt]
      split
      · exact keeps_walk d p.1 p.2
      · exact keeps_descend (keeps_walk d) p.2

/-- A walk that goes deeper goes the same way. -/
theorem extends_walk (d : Nat) (c : Category) (t : Tree c) :
    Extends (walk table d c t) (walk table (d + 1) c t) := by
  induction d generalizing c t with
  | zero =>
    intro s hs
    replace hs : (s.error <|> some .endless) = none := hs
    cases herror : s.error <;> rw [herror] at hs <;> cases hs
  | succ d ih =>
    rw [walk_succ, walk_succ]
    have hdescend := fun {c} (t : Tree c) => extends_descend ih t
    cases c with
    | block =>
      refine Extends.unlessStopped ?_ _
      refine (Extends.refl _).bind (fun ss => ?_) fun ss => ?_
      · exact (hdescend _).bind (fun _ => .refl _) fun _ => keeps_pure _
      · exact (keeps_descend (keeps_walk d) _).bind fun _ => keeps_pure _
    | stmt =>
      refine Extends.unlessStopped ?_ _
      exact (Extends.refl _).bind hdescend (keeps_descend (keeps_walk d))
    | expr =>
      refine Extends.unlessStopped ?_ _
      exact (Extends.refl _).bind hdescend (keeps_descend (keeps_walk d))
    | body =>
      refine (hdescend t).bind (fun b => .refl _) fun b => ?_
      split
      · exact (keeps_count _).bind fun _ => keeps_pure _
      · exact keeps_pure _
    | _ => exact hdescend t

/-! ## Walks without end -/

theorem size_lt_of_inside {c : Category} {t : Tree c} {q : Phrase} (h : Inside t q) :
    q.2.size < t.size := by
  induction h with
  | part hq _ => exact Tree.size_lt_of_visited hq
  | within hp _ _ ih => exact lt_trans ih (Tree.size_lt_of_visited hp)

theorem size_exprStmt (e : Expr) : (Tree.exprStmt e).size = e.size + 1 := by
  rw [Tree.size_eq_length, Tree.size_eq_length, Tree.reached_eq]
  show ([(⟨_, e⟩ : Phrase)].flatMap (·.2.reached)).length + 1 = _
  rw [List.flatMap_singleton]

/-- The operand of a comma expression as a statement is smaller than the whole. -/
theorem size_lt_of_operand {parts : Tree (.list .expr)} {e : Expr} (he : e ∈ parts.toList) :
    (Tree.exprStmt e).size < (Tree.exprStmt (.comma parts)).size := by
  have hlt : e.size < parts.size := by
    rw [← Tree.ofList_toList parts]
    exact size_lt_of_inside (inside_ofList rfl he)
  have hcomma : parts.size < (Tree.comma parts).size :=
    Tree.size_lt_of_visited (p := ⟨_, parts⟩) List.mem_cons_self
  rw [size_exprStmt, size_exprStmt]
  omega

/-- Without rules a walk comes to an end. -/
theorem acc_inward {c : Category} (t : Tree c) :
    Acc (fun q p => Leads table false p q) ⟨c, t⟩ := by
  induction hn : t.size using Nat.strong_induction_on generalizing c t with
  | _ n ih =>
    subst hn
    refine .intro _ fun q hq => ?_
    cases hq with
    | inward hq => exact ih _ (size_lt_of_inside hq) _ rfl
    | split hq =>
      rename_i parts
      cases hq with
      | within hp hacted _ =>
        rw [List.mem_singleton.mp hp] at hacted
        cases hacted
      | part hq _ =>
        obtain rfl := List.mem_singleton.mp hq
        -- the new list is not smaller than the statement, but its members are
        refine .intro _ fun q hq => ?_
        cases hq with
        | inward hq =>
          obtain ⟨s, hs, rfl⟩ := inside_blockOf.mp hq
          obtain ⟨e, he, rfl⟩ := List.mem_map.mp hs
          exact ih _ (size_lt_of_operand he) _ rfl

end Pass

namespace RuleTable

open Pass

/-- A pass ends: from some depth on its outcome does not depend on the depth. -/
def Ends (table : RuleTable) (p : Program) : Prop :=
  SettlesFrom (fun d => walk table d .block p.body) { graph := p.scopeGraph }

/-- A pass that did not stop has ended: more depth would not have changed anything. -/
theorem ends_of_pass {table : RuleTable} {p : Program} {stats : Stats}
    (h : (table.pass p).2 = .ok stats) : table.Ends p := by
  rcases hrun : (walk table (depthLimit p.body) .block p.body).run { graph := p.scopeGraph } with ⟨body, s⟩
  have herror : s.error = none := by
    rw [pass, hrun, outcome] at h
    cases he : s.error with
    | none => rfl
    | some e => simp only [he, reduceCtorEq] at h
  refine ⟨(body, s), ⟨depthLimit p.body, fun d hd => ?_⟩, fun h => by rw [herror] at h; cases h⟩
  induction hd with
  | refl => exact hrun
  | step _ ih => exact (extends_walk _ _ _ _ (ih ▸ herror)).trans ih

/-- A pass ends, or rules are applied inside the replacements of rules without end. -/
theorem ends_or_cascades (table : RuleTable) (p : Program) :
    table.Ends p ∨ Nonempty (Cascade table ⟨.block, p.body⟩) := by
  by_cases hacc : Acc (fun q p => ∃ applied, Leads table applied p q) ⟨.block, p.body⟩
  · left
    have hsettles : ∀ q : Phrase, Acc (fun q p => ∃ applied, Leads table applied p q) q →
        Settles fun d => walk table d q.1 q.2 := by
      intro q hq
      induction hq with
      | intro p _ ih => exact settles_walk ih
    exact hsettles _ hacc _ nofun
  · right
    obtain ⟨phrase, hstart, hleads⟩ := not_acc_iff_exists_descending_chain.mp hacc
    choose applied hleads using hleads
    refine ⟨⟨phrase, applied, hstart, hleads, fun n => ?_⟩⟩
    by_contra hquiet
    have hinward : ∀ m, Leads table false (phrase (n + m)) (phrase (n + (m + 1))) := by
      intro m
      have hfalse : applied (n + m) = false := by
        by_contra happlied
        exact hquiet ⟨n + m, Nat.le_add_right n m, Bool.eq_true_of_not_eq_false happlied⟩
      exact hfalse ▸ hleads (n + m)
    exact not_acc_iff_exists_descending_chain.mpr ⟨fun m => phrase (n + m), rfl, hinward⟩ (acc_inward _)

/-! ## A table with a cascade -/

namespace Nest

/-- The expression `a`. -/
def a (id : Option Nat) : Expr := .identExpr (.ident "a" id)

/-- The expression `[a]`. -/
def nested : Expr := .array (.cons (.some (a none)) .nil)

/-- The rule that puts `[a]` in the place of `a`. -/
def rule : Rule where
  name := "nest"
  pattern := .expr (a none)
  replacement := .expr nested
  agree := rfl

/-- The rule as it is written. -/
def spec : RuleSpec := { name := "nest", pattern := "a", replacement := "[a]" }

/-- The table with this rule alone. -/
def table : RuleTable := { rules := [rule] }

/-- The program `a;`. -/
def program : Program := ⟨Tree.blockOf [.exprStmt (a (some 0))]⟩

set_option maxRecDepth 100000 in
theorem pushSpecs_spec : ({} : RuleTable).pushSpecs [spec] = .ok table := by
  have hcompiled : [spec].map (fun spec => (Rule.ofSpec spec).toOption) = [rule].map some := by
    decide +kernel
  exact pushSpecs_eq hcompiled (by decide +kernel)

theorem applyToExpr_a (id : Option Nat) :
    applyToExpr table (a id) = (do record rule; return nested) := rfl

/-- A pass that stops only because it has run out of depth. -/
def Endless {α : Type} (x : Pass α) : Prop :=
  ∀ s, s.error = none → (x.run s).2.error = some .endless

theorem Endless.unlessStopped {α : Type} {x : Pass α} (hx : Endless x) (t : α) :
    Endless (do if ← stopped then return t else x) := by
  intro s hs
  show ((if s.error.isSome = true then (pure t : Pass α) else x).run s).2.error = _
  rw [hs]
  exact hx s hs

theorem Endless.bind {α β : Type} {x : Pass α} {f : α → Pass β} (hx : Endless x)
    (hf : ∀ a, Keeps (f a)) : Endless (x >>= f) :=
  fun s hs => hf _ _ _ (hx s hs)

theorem endless_walk_zero {c : Category} (t : Tree c) : Endless (walk table 0 c t) := by
  intro s hs
  show (s.error <|> some .endless) = _
  rw [hs]
  rfl

/-- However deep a walk goes, there is an `a` left. -/
theorem endless_walk_a (d : Nat) (id : Option Nat) : Endless (walk table d .expr (a id)) := by
  induction d generalizing id with
  | zero => exact endless_walk_zero _
  | succ d ih =>
    refine Endless.unlessStopped ?_ _
    rw [applyToExpr_a]
    exact fun s hs => ih none _ hs

theorem endless_walk_stmt (d : Nat) (id : Option Nat) :
    Endless (walk table d .stmt (.exprStmt (a id))) := by
  cases d with
  | zero => exact endless_walk_zero _
  | succ d =>
    refine Endless.unlessStopped ?_ _
    exact fun s hs => endless_walk_a d id s hs

theorem endless_walk_program (d : Nat) : Endless (walk table d .block program.body) := by
  cases d with
  | zero => exact endless_walk_zero _
  | succ d =>
    have hsweep : sweep table program.body.statements = pure program.body.statements := by
      show sweep table [.exprStmt (a (some 0))] = pure [.exprStmt (a (some 0))]
      rw [sweep, show windowAt? table [.exprStmt (a (some 0))] = none from rfl]
      simp only [sweep, pure_bind]
    refine Endless.unlessStopped ?_ _
    rw [hsweep, pure_bind]
    refine Endless.bind (fun s hs => endless_walk_stmt d (some 0) s hs) fun b => ?_
    exact keeps_pure _

end Nest

end RuleTable

end Unminify
