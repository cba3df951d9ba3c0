import Mathlib.Data.List.Basic
import Unminify.Proofs.Pass.Sequences

/-!
# What a pass conserves

A pass loses, duplicates and reorders nothing. Rules take a statement apart and put the pieces into a
template, blocks take over statements, sequences are spliced and comma expressions split; through all of
this the comments of a program stay in their order, and so do its identifiers, unless functions are
rewritten to helpers. The one thing added is an identifier `undefined` for each `void 0`.

What is followed through the pass is a *reading*: what some function reads off the phrases that a walk
comes to, in order. `Reads` says that it reads off identifiers and comments only, `Skims` that it reads
off none of the forms that a pass makes or takes apart. One step changes a reading at most by what the
rule for `void 0` puts in (`tallies_simplifyStmt`, `tallies_applyToExpr`), and so does a walk, once for
each time that the rule is counted (`tallies_walk`).
-/

namespace Unminify

namespace Tree

/-! ## Readings -/

/-- Whether a phrase is an identifier or a comment, or has the body of a function. -/
def isNotable : {c : Category} → Tree c → Bool
  | _, .function _ _ _ _ _ => true
  | _, .blockBody _ => true
  | _, .staticBlock _ => true
  | _, t => t.isLeaf

section

variable {α : Type} (f : Phrase → Option α)

/-- What is read off the phrases that a walk comes to, in order. -/
def reading {c : Category} (t : Tree c) : List α := t.reached.filterMap f

theorem reading_eq {c : Category} (t : Tree c) :
    t.reading f = (f ⟨c, t⟩).toList ++ t.visited.flatMap fun p => p.2.reading f := by
  unfold reading
  rw [reached_eq, List.filterMap_cons, List.filterMap_flatMap]
  cases f ⟨c, t⟩ <;> rfl

/-- Nothing is read but identifiers and comments. -/
def Reads : Prop := ∀ {c : Category} {t : Tree c}, t.isLeaf = false → f ⟨c, t⟩ = Option.none

/-- Nothing is read but identifiers, comments and what has the body of a function: no form that a pass
makes or takes apart is read. -/
def Skims : Prop := ∀ {c : Category} {t : Tree c}, t.isNotable = false → f ⟨c, t⟩ = Option.none

end

/-- The texts of the comments that a walk comes to, in order. -/
def comments {c : Category} (t : Tree c) : List String := t.reading comment?

/-- The identifiers that a walk comes to, in order, each with its position. -/
def identifiers {c : Category} (t : Tree c) : List Name := t.reading identifier?

theorem reads_comment? : Reads comment? := by
  intro c t h
  cases t <;> first | rfl | cases h

theorem reads_identifier? : Reads identifier? := by
  intro c t h
  cases c <;> first | rfl | cases h

section

variable {α : Type} {f : Phrase → Option α}

/-- What is read off a phrase that is not read itself is read off its parts. -/
theorem reading_of_none {c : Category} {t : Tree c} (h : f ⟨c, t⟩ = Option.none) :
    t.reading f = t.visited.flatMap fun p => p.2.reading f := by
  rw [reading_eq, h]
  rfl

theorem reading_eq_nil {c : Category} {t : Tree c} (h : f ⟨c, t⟩ = Option.none)
    (hparts : Each (fun _ u => u.reading f = []) t.visited) : t.reading f = [] := by
  rw [reading_of_none h]
  exact List.flatMap_eq_nil_iff.mpr hparts.of_mem

theorem isLeaf_of_isNotable {c : Category} {t : Tree c} (h : t.isNotable = false) : t.isLeaf = false := by
  cases t with
  | function _ _ _ _ _ => rfl
  | blockBody _ => rfl
  | staticBlock _ => rfl
  | _ => exact h

theorem Reads.skims (hf : Reads f) : Skims f := fun h => hf (isLeaf_of_isNotable h)

end

section

variable {α : Type} {f : Phrase → Option α} (hf : Reads f)

include hf

/-- Where identifiers are not read, nothing is read but comments. -/
theorem Reads.eq_none (hname : ∀ name, f ⟨.name, name⟩ = Option.none) {q : Phrase}
    (h : comment? q = Option.none) : f q = Option.none := by
  obtain ⟨c, t⟩ := q
  cases hleaf : t.isLeaf with
  | false => exact hf hleaf
  | true =>
    cases t with
    | ident _ _ => exact hname _
    | nameHole _ => exact hname _
    | comment _ => cases h
    | _ => cases hleaf

/-- The same is read off a form whatever its parts are. -/
theorem Reads.rebuild {c : Category} (t : Tree c) (us : List Phrase) :
    f ⟨c, t.rebuild us⟩ = f ⟨c, t⟩ := by
  cases t with
  | ident _ _ => rfl
  | nameHole _ => rfl
  | comment _ => rfl
  | _ => exact (hf rfl).trans (hf rfl).symm

theorem Reads.reading_rebuild {c : Category} {t : Tree c} {us : List Phrase}
    (h : us.map Sigma.fst = t.visited.map Sigma.fst) :
    (t.rebuild us).reading f = (f ⟨c, t⟩).toList ++ us.flatMap fun p => p.2.reading f := by
  rw [reading_eq, hf.rebuild, visited_rebuild h]

end

section

variable {α : Type} {f : Phrase → Option α} (hf : Skims f)

include hf

/-- The reading of a phrase with one part is that of the part. -/
theorem Skims.single {c d : Category} {t : Tree c} {u : Tree d} (h : t.isNotable = false)
    (hvisited : t.visited = [⟨d, u⟩]) : t.reading f = u.reading f := by
  rw [reading_of_none (hf h), hvisited]
  exact List.append_nil _

theorem Skims.stmts (items : Tree (.list .stmt)) : (Tree.stmts items).reading f = items.reading f :=
  hf.single rfl rfl

theorem Skims.body (s : Stmt) : (Tree.body s).reading f = s.reading f := hf.single rfl rfl

theorem Skims.blockStmt (b : Block) : (Tree.blockStmt b).reading f = b.reading f := hf.single rfl rfl

theorem Skims.sequence (b : Block) : (Tree.sequence b).reading f = b.reading f := hf.single rfl rfl

theorem Skims.exprStmt (e : Expr) : (Tree.exprStmt e).reading f = e.reading f := hf.single rfl rfl

theorem Skims.some {c : Category} (t : Tree c) : (Tree.some t).reading f = t.reading f :=
  hf.single rfl rfl

theorem Skims.ifStmt (test : Expr) (consequent : Tree .body) (alternate : Tree (.option .body)) :
    (Tree.ifStmt test consequent alternate).reading f =
      test.reading f ++ (consequent.reading f ++ alternate.reading f) := by
  rw [reading_of_none (hf rfl), ← List.append_nil (alternate.reading f)]
  rfl

theorem Skims.ofList {c : Category} (ts : List (Tree c)) :
    (Tree.ofList ts).reading f = ts.flatMap fun t => t.reading f := by
  induction ts with
  | nil => exact reading_of_none (hf rfl)
  | cons t ts ih =>
    show (Tree.cons t (Tree.ofList ts)).reading f = _
    rw [reading_of_none (hf rfl), List.flatMap_cons, ← ih]
    exact congrArg (t.reading f ++ ·) (List.append_nil _)

theorem Skims.blockOf (ss : List Stmt) :
    (Tree.blockOf ss).reading f = ss.flatMap fun s => s.reading f := by
  rw [Tree.blockOf, hf.stmts, hf.ofList]

theorem Skims.statements (b : Block) : b.reading f = b.statements.flatMap fun s => s.reading f := by
  rw [← hf.blockOf, blockOf_statements]

/-- Splicing moves the members of sequences, and nothing else. -/
theorem Skims.splice (ss : List Stmt) :
    ((Tree.splice ss).flatMap fun s => s.reading f) = ss.flatMap fun s => s.reading f := by
  induction ss using splice.induct with
  | case1 => rw [Tree.splice]
  | case2 inner rest ih =>
    rw [Tree.splice, ih, List.flatMap_append, List.flatMap_cons, hf.sequence, hf.statements]
  | case3 s rest hne ih =>
    rw [Tree.splice, List.flatMap_cons, List.flatMap_cons, ih]
    exact hne

end

end Tree

/-! ## Steps and readings -/

namespace Builtin

open Tree

variable {α : Type} {f : Phrase → Option α} (hf : Skims f)

include hf

theorem Skims.braces (s : Stmt) : (Builtin.braces s).reading f = s.reading f := by
  rw [Builtin.braces, hf.body, hf.blockStmt, hf.stmts]
  exact (hf.ofList [s]).trans (List.append_nil _)

theorem Skims.braced (b : Tree .body) : b.braced.reading f = b.reading f := by
  cases b with
  | body s =>
    rw [hf.body]
    cases s with
    | blockStmt inner => exact hf.body _
    | sequence inner => exact (hf.body _).trans ((hf.blockStmt _).trans (hf.sequence _).symm)
    | emptyStmt =>
      have hempty : emptyStmt.reading f = [] := reading_of_none (hf rfl)
      show (Tree.body (blockStmt (blockOf []))).reading f = _
      rw [hf.body, hf.blockStmt, hf.blockOf, hempty]
      rfl
    | _ => exact Skims.braces hf _

/-- Braces around the bodies of a statement leave its reading as it is. -/
theorem Skims.bracedParts {s s' : Stmt} (hs : s.isNotable = false) (hs' : s'.isNotable = false)
    (hvisited : s'.visited = s.visited.map bracedPart) : s'.reading f = s.reading f := by
  rw [reading_of_none (hf hs), reading_of_none (hf hs'), hvisited, List.flatMap_map]
  congr 1
  funext p
  obtain ⟨c, t⟩ := p
  cases c with
  | body => exact Skims.braced hf t
  | _ => rfl

/-- A rule for statements leaves their reading as it is. -/
theorem Skims.recast (b : Builtin) (s : Stmt) : (b.recast s).reading f = s.reading f := by
  have hnone : (Tree.none : Tree (.option .body)).reading f = [] := reading_of_none (hf rfl)
  cases s with
  | exprStmt e =>
    rw [hf.exprStmt]
    cases e with
    | binary op left right =>
      have hbinary : (Tree.binary op left right).reading f = left.reading f ++ (right.reading f ++ []) :=
        reading_of_none (hf rfl)
      cases op with
      | and =>
        show (Tree.ifStmt left (Builtin.braces (.exprStmt right)) .none).reading f = _
        rw [hf.ifStmt, Skims.braces hf, hf.exprStmt, hnone, hbinary]
      | or =>
        have hnot : (Tree.unary .not left).reading f = left.reading f := hf.single rfl rfl
        show (Tree.ifStmt (.unary .not left) (Builtin.braces (.exprStmt right)) .none).reading f = _
        rw [hf.ifStmt, hnot, Skims.braces hf, hf.exprStmt, hnone, hbinary]
      | _ => exact hf.exprStmt _
    | conditional test left right =>
      have hchoice : (Tree.conditional test left right).reading f =
          test.reading f ++ (left.reading f ++ (right.reading f ++ [])) := reading_of_none (hf rfl)
      show (Tree.ifStmt test (Builtin.braces (.exprStmt left))
        (.some (Builtin.braces (.exprStmt right)))).reading f = _
      rw [hf.ifStmt, hf.some, Skims.braces hf, Skims.braces hf, hf.exprStmt, hf.exprStmt, hchoice,
        List.append_nil]
    | _ => exact hf.exprStmt _
  | ifStmt test consequent alternate =>
    cases alternate with
    | none => exact Skims.bracedParts hf rfl rfl rfl
    | some alternate =>
      rw [Pass.recast_ifStmt_some, hf.ifStmt, hf.ifStmt, Skims.braced hf, hf.some, hf.some]
      split
      · rw [Skims.braced hf]
      · rfl
  | whileStmt test inner => exact Skims.bracedParts hf rfl rfl rfl
  | doWhile test inner => exact Skims.bracedParts hf rfl rfl rfl
  | forStmt init test step inner => exact Skims.bracedParts hf rfl rfl rfl
  | forIn left right inner => exact Skims.bracedParts hf rfl rfl rfl
  | forOf isAwait left right inner => exact Skims.bracedParts hf rfl rfl rfl
  | _ => rfl

/-- Splitting a comma expression leaves its reading as it is. -/
theorem Skims.split (parts : Tree (.list .expr)) :
    (Tree.sequence (blockOf (parts.toList.map .exprStmt))).reading f =
      (Tree.exprStmt (.comma parts)).reading f := by
  have hcomma : (Tree.comma parts).reading f = parts.reading f := hf.single rfl rfl
  rw [hf.sequence, hf.blockOf, hf.exprStmt, hcomma, List.flatMap_map]
  conv_rhs => rw [← ofList_toList parts, hf.ofList]
  simp only [hf.exprStmt]

/-- A constant is read as what is written for it, but for the identifier `undefined`. -/
theorem Skims.spelling? {b : Builtin} {e written : Expr} (h : b.spelling? e = Option.some written) :
    e.reading f = [] ∧
      (b = .voidZero ∧ written = .identExpr (.ident "undefined" none) ∨
        b ≠ .voidZero ∧ written.reading f = []) := by
  obtain ⟨found, hconstant, hsame⟩ := Pass.spelling?_eq_some.mp h
  obtain ⟨hform, hparts⟩ := same_iff.mp hsame
  have hliteral (l : Literal) : (Tree.literal l).reading f = [] := reading_of_none (hf rfl)
  -- each constant is an operator before a literal
  have hunary : ∀ op l, found = .unary op (.literal l) → e.reading f = [] := by
    rintro op l rfl
    cases e with
    | unary op' arg =>
      obtain ⟨harg, -⟩ := related_cons.mp hparts
      cases arg with
      | literal l' => exact (hf.single rfl rfl).trans (hliteral l')
      | _ => exact absurd (same_iff.mp harg).1 Bool.false_ne_true
    | _ => exact absurd hform Bool.false_ne_true
  cases b with
  | notOne => cases hconstant; exact ⟨hunary _ _ rfl, .inr ⟨nofun, hliteral _⟩⟩
  | notZero => cases hconstant; exact ⟨hunary _ _ rfl, .inr ⟨nofun, hliteral _⟩⟩
  | voidZero => cases hconstant; exact ⟨hunary _ _ rfl, .inl ⟨rfl, rfl⟩⟩
  | _ => cases hconstant

/-- The step at a statement leaves its reading as it is, if no function becomes a helper. -/
theorem Skims.simplified (bs : List Builtin) (s : Stmt) : (simplified bs s).reading f = s.reading f := by
  by_cases hcomma : ∃ parts, s = .exprStmt (.comma parts)
  · obtain ⟨parts, rfl⟩ := hcomma
    exact Skims.split hf parts
  · rw [Pass.simplified_of_ne fun parts h => hcomma ⟨parts, h⟩, reshaped]
    split
    · exact Skims.recast hf _ s
    · rfl

/-- Where identifiers are not read, neither are constants, however they are written. -/
theorem Skims.spelled (hname : ∀ name, f ⟨.name, name⟩ = Option.none) (bs : List Builtin) (e : Expr) :
    (spelled bs e).reading f = e.reading f := by
  rw [Builtin.spelled]
  cases hfind : bs.findSome? (·.spelling? e) with
  | none => rfl
  | some written =>
    obtain ⟨b, -, hb⟩ := List.exists_of_findSome?_eq_some hfind
    obtain ⟨he, ⟨-, rfl⟩ | ⟨-, hwritten⟩⟩ := Skims.spelling? hf hb
    · rw [he]
      exact reading_eq_nil (hf rfl) ⟨reading_eq_nil (hname _) trivial, trivial⟩
    · rw [he]
      exact hwritten

end Builtin

/-! ## Insertions -/

/-- A list after some texts have been put in, a number of times; what was there before keeps its
order. -/
structure Inserted {α : Type} (extra : List α) (n : Nat) (before after : List α) : Prop where
  sublist : before.Sublist after
  perm : after.Perm (before ++ (List.replicate n extra).flatten)

namespace Inserted

variable {α : Type} {extra as bs cs ds : List α} {m n : Nat}

theorem refl : Inserted extra 0 as as := ⟨List.Sublist.refl _, by simp⟩

theorem once : Inserted extra 1 [] extra := ⟨List.nil_sublist _, by simp⟩

theorem trans (h : Inserted extra m as bs) (h' : Inserted extra n bs cs) :
    Inserted extra (m + n) as cs := by
  refine ⟨h.sublist.trans h'.sublist, h'.perm.trans ?_⟩
  rw [List.replicate_add, List.flatten_append, ← List.append_assoc]
  exact h.perm.append_right _

theorem append (h : Inserted extra m as bs) (h' : Inserted extra n cs ds) :
    Inserted extra (m + n) (as ++ cs) (bs ++ ds) := by
  refine ⟨h.sublist.append h'.sublist, (h.perm.append h'.perm).trans ?_⟩
  rw [List.replicate_add, List.flatten_append, List.append_assoc, List.append_assoc]
  apply List.Perm.append_left
  rw [← List.append_assoc, ← List.append_assoc]
  exact List.perm_append_comm.append_right _

/-- Where there is nothing to put in, nothing changes. -/
theorem eq_of_nil (h : Inserted [] n as bs) : bs = as := by
  have hlength := h.perm.length_eq
  simp only [List.length_append, List.flatten_replicate_nil, List.length_nil, Nat.add_zero] at hlength
  exact (h.sublist.eq_of_length hlength.symm).symm

end Inserted

namespace Pass

open Tree

/-! ## Passes that count -/

/-- The name under which the rule for `void 0` is counted. -/
def voided (s : State) : Nat := s.stats.applied.count "void-zero"

/-- What some steps do to the state if the pass does not stop: the rule for `void 0` is counted a number
of times, and nothing is renamed unless functions may become helpers. -/
structure Advanced (helpers : Bool) (n : Nat) (s s' : State) : Prop where
  running : s'.error = s.error
  unchanged : helpers = false → s'.graph = s.graph
  voided : voided s' = voided s + n

/-- Unless the pass stops, there is a result with a property of it and of how often the rule for `void 0`
has been counted. -/
def Tallies (helpers : Bool) {α : Type} (x : Pass α) (Q : Nat → α → Prop) : Prop :=
  ∀ s, (∃ n, Advanced helpers n s (x.run s).2 ∧ Q n (x.run s).1) ∨ (x.run s).2.error ≠ Option.none

section

variable {helpers : Bool} {α β : Type} {x : Pass α} {g : α → Pass β} {P Q : Nat → α → Prop}
  {S : Nat → β → Prop}

theorem Advanced.refl (s : State) : Advanced helpers 0 s s := ⟨rfl, fun _ => rfl, rfl⟩

theorem Advanced.trans {m n : Nat} {s s' s'' : State} (h : Advanced helpers m s s')
    (h' : Advanced helpers n s' s'') : Advanced helpers (m + n) s s'' where
  running := h'.running.trans h.running
  unchanged hh := (h'.unchanged hh).trans (h.unchanged hh)
  voided := by rw [h'.voided, h.voided, Nat.add_assoc]

theorem tallies_pure {a : α} (h : Q 0 a) : Tallies helpers (pure a) Q :=
  fun s => .inl ⟨0, .refl s, h⟩

theorem Tallies.imp (hx : Tallies helpers x P) (h : ∀ n a, P n a → Q n a) : Tallies helpers x Q := by
  intro s
  rcases hx s with ⟨n, hs, ha⟩ | hstop
  · exact .inl ⟨n, hs, h n _ ha⟩
  · exact .inr hstop

theorem Tallies.bind (hx : Tallies helpers x P)
    (hg : ∀ n a, P n a → Tallies helpers (g a) fun m b => S (n + m) b) (hkeeps : ∀ a, Keeps (g a)) :
    Tallies helpers (x >>= g) S := by
  intro s
  rcases hx s with ⟨n, hs, ha⟩ | hstop
  · rcases hg n _ ha (x.run s).2 with ⟨m, hs', hb⟩ | hstop
    · exact .inl ⟨n + m, hs.trans hs', hb⟩
    · exact .inr hstop
  · obtain ⟨e, he⟩ := Option.ne_none_iff_exists'.mp hstop
    refine .inr ?_
    rw [show ((x >>= g).run s).2.error = Option.some e from hkeeps _ _ e he]
    exact nofun

theorem tallies_fail (e : PassError) {Q : Nat → Unit → Prop} : Tallies helpers (fail e) Q := by
  intro s
  right
  show (s.error <|> Option.some e) ≠ Option.none
  cases s.error <;> exact nofun

theorem tallies_count {g : Stats → Stats} (h : ∀ s, (g s).applied = s.applied) :
    Tallies helpers (count g) fun n _ => n = 0 := by
  intro s
  refine .inl ⟨0, ⟨rfl, fun _ => rfl, ?_⟩, rfl⟩
  show (g s.stats).applied.count "void-zero" = s.stats.applied.count "void-zero" + 0
  rw [h, Nat.add_zero]

theorem tallies_record (r : Rule) :
    Tallies helpers (record r) fun n _ => n = if r.name = "void-zero" then 1 else 0 := by
  intro s
  refine .inl ⟨_, ⟨rfl, fun _ => rfl, ?_⟩, rfl⟩
  show (s.stats.applied ++ [r.name]).count "void-zero" = s.stats.applied.count "void-zero" + _
  rw [List.count_append, List.count_singleton]
  simp only [beq_iff_eq]

/-- Once stopped, the pass is stopped anyway. -/
theorem Tallies.unlessStopped (hx : Tallies helpers x Q) (a : α) :
    Tallies helpers (do if ← stopped then return a else x) Q := by
  intro s
  by_cases hstop : s.error.isSome = true
  · right
    show ((if s.error.isSome = true then (pure a : Pass α) else x).run s).2.error ≠ Option.none
    rw [if_pos hstop]
    exact Option.isSome_iff_ne_none.mp hstop
  · have hrun : (do if ← stopped then return a else x : Pass α).run s = x.run s := by
      show (if s.error.isSome = true then (pure a : Pass α) else x).run s = _
      rw [if_neg hstop]
    rw [hrun]
    exact hx s

end

/-! ## Helpers -/

end Pass

namespace Pattern

open Tree

variable {α : Type} {f : Phrase → Option α} {κ : Phrase → Prop} {options : MatchOptions}

/-- Nothing is read off what a pattern matches in which all holes are for names, if nothing is read off
phrases of the forms that the pattern has. -/
theorem Matches.reading_eq_nil (hname : ∀ name, f ⟨.name, name⟩ = Option.none)
    (hκ : ∀ {c : Category} {p n : Tree c}, p.sameForm n = true → κ ⟨c, p⟩ → f ⟨c, n⟩ = Option.none)
    {c : Category} {p n : Tree c} {env env' : Environment}
    (hp : p.Everywhere fun q => κ q ∧ q.2.hole?.all (·.family = .generic) = true)
    (h : Matches options p n env env') : n.reading f = [] := by
  induction p using Tree.induction_on_parts generalizing env env' with
  | step c p ih =>
    cases hd : demand options p n with
    | bind k v =>
      have hself := hp.self.2
      cases binds_of_demand hd with
      | name =>
        rw [reading_eq, hname]
        rfl
      | stmt _ => cases hself
      | expr => cases hself
      | decl => cases (hp.part (p := ⟨_, _⟩) List.mem_cons_self).self.2
    | refuse => exact absurd h (not_matches_of_refuse hd)
    | compare =>
      obtain ⟨hform, hchain⟩ := (matches_of_compare hd).mp h
      have hparts : Related (fun _ _ u => u.reading f = []) p.parts n.parts := by
        replace hp : ∀ q ∈ p.parts, _ := fun q hq => hp.part hq
        generalize p.parts = ps at ih hp hchain
        generalize n.parts = ns at hchain
        clear h hd hform
        induction hchain with
        | nil => exact .nil
        | cons hmid _ ihRest =>
          refine .cons (ih _ List.mem_cons_self (hp _ List.mem_cons_self) hmid) ?_
          exact ihRest (fun q hq => ih q (List.mem_cons_of_mem _ hq))
            fun q hq => hp q (List.mem_cons_of_mem _ hq)
      rw [reading_eq, hκ hform hp.self.1]
      apply List.flatMap_eq_nil_iff.mpr
      intro q hq
      obtain ⟨-, -, hq⟩ := hparts.exists_of_mem (mem_parts_of_visited hq)
      exact hq

end Pattern

namespace Builtin

open Tree

/-- What the rule for interop helpers applies to matches its pattern. -/
theorem matches_of_interopRule {options : MatchOptions} {s : Stmt}
    (h : (interopRule.applyToStmt? options s).isSome = true) :
    ∃ env, Pattern.Matches options (interopHelper (.nameHole 1) (.nameHole 2)) s {} env := by
  have hrule : interopRule.applyToStmt? options s =
      (Pattern.matchTree options (interopHelper (.nameHole 1) (.nameHole 2)) s).bind fun env =>
        Option.some (Pattern.fillTree env
          (interopHelper (.ident "_interopRequireDefault" Option.none) (.ident "obj" Option.none))) := by
    cases s <;> rfl
  cases hmatch : Pattern.matchTree options (interopHelper (.nameHole 1) (.nameHole 2)) s with
  | some env => exact ⟨env, Pattern.matchTree_eq_some.mp hmatch⟩
  | none =>
    rw [hrule, hmatch] at h
    cases h

variable {α : Type} {f : Phrase → Option α} (hf : Reads f) (hname : ∀ name, f ⟨.name, name⟩ = Option.none)

include hf hname

/-- A function that is rewritten to a helper has no comments. -/
theorem reading_of_interopRule {options : MatchOptions} {s : Stmt}
    (h : (interopRule.applyToStmt? options s).isSome = true) : s.reading f = [] := by
  obtain ⟨env, hmatch⟩ := matches_of_interopRule h
  have hpattern : (interopHelper (.nameHole 1) (.nameHole 2)).Everywhere fun q =>
      comment? q = Option.none ∧ q.2.hole?.all (·.family = .generic) = true := by
    unfold Everywhere
    decide
  refine hmatch.reading_eq_nil hname (fun {c p n} hform hcomment => ?_) hpattern
  apply hf.eq_none hname
  cases n with
  | comment text =>
    -- the pattern would be a comment, too
    have hkind := kind_eq_of_sameForm hform
    cases p <;> first | cases hkind; done | cases hcomment
  | _ => rfl

theorem reading_interopHelper (name param : Name) : (interopHelper name param).reading f = [] := by
  have hident (name : Name) : name.reading f = [] := by
    rw [reading_eq, hname]
    cases name <;> rfl
  have hparam : (Tree.identExpr param).reading f = [] := reading_eq_nil (hf rfl) ⟨hident param, trivial⟩
  have hparams : (Tree.cons (.nameBinder param) .nil).reading f = [] :=
    reading_eq_nil (hf rfl) ⟨reading_eq_nil (hf rfl) ⟨hident param, trivial⟩, reading_eq_nil (hf rfl) trivial, trivial⟩
  have htest : (Tree.binary .and (.identExpr param)
      (.access false false (.identExpr param) (.literal (.string "__esModule")))).reading f = [] :=
    reading_eq_nil (hf rfl) ⟨hparam, reading_eq_nil (hf rfl) ⟨hparam, trivial⟩, trivial⟩
  have hobject : (Tree.object (.cons (.keyed (.nameKey "default") (.identExpr param)) .nil)).reading f = [] :=
    reading_eq_nil (hf rfl) ⟨reading_eq_nil (hf rfl) ⟨reading_eq_nil (hf rfl) ⟨reading_eq_nil (hf rfl) trivial, hparam, trivial⟩,
      reading_eq_nil (hf rfl) trivial, trivial⟩, trivial⟩
  refine reading_eq_nil (hf rfl) ⟨reading_eq_nil (hf rfl) ⟨reading_eq_nil (hf rfl) ⟨hident name, trivial⟩, hparams, ?_, trivial⟩, trivial⟩
  -- the body is one statement, which returns a choice
  refine reading_eq_nil (hf rfl) ⟨reading_eq_nil (hf rfl) ⟨reading_eq_nil (hf rfl) ⟨reading_eq_nil (hf rfl) ⟨?_, trivial⟩, trivial⟩,
    reading_eq_nil (hf rfl) trivial, trivial⟩, trivial⟩
  exact reading_eq_nil (hf rfl) ⟨htest, hparam, hobject, trivial⟩

end Builtin

namespace Pass

open Tree

variable {α : Type} {f : Phrase → Option α} {table : RuleTable} {bs : List Builtin} {helpers : Bool}

/-- What the rule for `void 0` puts in. -/
def undefinedReading (f : Phrase → Option α) : List α :=
  (Tree.identExpr (.ident "undefined" Option.none)).reading f

/-! ## Steps -/

/-- The step at an expression puts in what is counted. -/
theorem tallies_applyToExpr (hf : Reads f) (htable : table.Offers bs helpers) {e : Expr}
    (he : e.holes = []) :
    Tallies helpers (applyToExpr table e) fun n e' =>
      e'.holes = [] ∧ Inserted (undefinedReading f) n (e.reading f) (e'.reading f) := by
  rcases applyToExpr_cases htable e with ⟨hpure, -⟩ | ⟨b, written, hspelling, -, hrecord⟩
  · rw [hpure]
    exact tallies_pure ⟨he, .refl⟩
  · rw [hrecord]
    refine (tallies_record b.rule).bind ?_ fun _ => keeps_pure _
    intro n _ hn
    obtain ⟨found, hconstant, -⟩ := spelling?_eq_some.mp hspelling
    have hholes := (Builtin.holes_constant? hconstant).2
    obtain ⟨he, ⟨rfl, rfl⟩ | ⟨hne, hwritten⟩⟩ := Builtin.Skims.spelling? hf.skims hspelling
    · have hn : n = 1 := hn
      rw [hn, he]
      exact tallies_pure ⟨hholes, .once⟩
    · have hn : n = 0 := by
        rw [hn, if_neg]
        intro hname
        exact hne (Builtin.name_inj hname)
      rw [hn, he]
      refine tallies_pure ⟨hholes, ?_⟩
      rw [hwritten]
      exact .refl

/-- A function that becomes a helper gets a name. -/
theorem tallies_disambiguate (s : Stmt) (proposed : String) (param : Name) :
    Tallies true (disambiguate s (Builtin.interopHelper (.ident proposed Option.none) param))
      fun n new => n = 0 ∧ ∃ name id, new = Option.some (Builtin.interopHelper (.ident name id) param) := by
  cases s with
  | functionStmt fn =>
    cases fn with
    | function isAsync isGenerator name params inner =>
      cases name with
      | none => exact tallies_pure ⟨rfl, proposed, Option.none, rfl⟩
      | some declared =>
        intro s
        rw [disambiguate_interopHelper, StateT.run_bind, StateT.run_get]
        simp only [pure_bind]
        split
        · right
          show (s.error <|> Option.some _) ≠ Option.none
          cases s.error <;> exact nofun
        · rename_i id b _
          refine .inl ⟨0, ⟨?_, nofun, ?_⟩, rfl, s.graph.freeName b proposed, Option.some id, ?_⟩
          all_goals split <;> rfl
  | _ => exact tallies_pure ⟨rfl, proposed, Option.none, rfl⟩

/-- The step at a statement leaves its reading as it is. -/
theorem tallies_simplifyStmt (hf : Reads f) (hname : helpers = true → ∀ name, f ⟨.name, name⟩ = Option.none)
    (htable : table.Offers bs helpers) {s : Stmt} (hs : s.holes = []) :
    Tallies helpers (simplifyStmt table s) fun n s' =>
      n = 0 ∧ s'.holes = [] ∧ s'.reading f = s.reading f := by
  have hholes : (Builtin.simplified bs s).holes = [] :=
    holes_eq_nil_iff.mpr (Builtin.everywhere_simplified lasting_hole?.pervasive (holes_eq_nil_iff.mp hs))
  by_cases hcomma : ∃ parts, s = .exprStmt (.comma parts)
  · obtain ⟨parts, rfl⟩ := hcomma
    refine (tallies_count (by intro _; rfl)).bind ?_ fun _ => keeps_pure _
    rintro _ _ rfl
    exact tallies_pure ⟨rfl, hholes, Builtin.Skims.split hf.skims parts⟩
  · have hne : ∀ parts, s ≠ .exprStmt (.comma parts) := fun parts h => hcomma ⟨parts, h⟩
    rw [simplified_of_ne hne] at hholes
    rw [simplifyStmt_of_ne hne]
    rcases applyToStmt_cases htable hs with ⟨hpure, -⟩ | ⟨b, hb, hrecord⟩ | ⟨rfl, -, hb, hsome⟩
    · rw [hpure]
      exact tallies_pure ⟨rfl, hs, rfl⟩
    · rw [hrecord]
      refine (tallies_record b.rule).bind ?_ fun _ => keeps_pure _
      intro n _ hn
      have hn : n = 0 := by
        rw [hn, if_neg]
        intro hname
        -- the rule for constants accepts no statement
        obtain rfl : b = .voidZero := Builtin.name_inj hname
        exact absurd (accepts_of_pick hb) Bool.false_ne_true
      rw [Builtin.reshaped, hb] at hholes
      rw [hn]
      exact tallies_pure ⟨rfl, hholes, Builtin.Skims.recast hf.skims b s⟩
    · have hreading : s.reading f = [] :=
        Builtin.reading_of_interopRule hf (hname rfl) (Option.isSome_iff_exists.mpr ⟨_, hsome⟩)
      rw [applyToStmt_interopRule htable hs hb hsome]
      refine (tallies_disambiguate s _ _).bind ?_ ?_
      · rintro _ _ ⟨rfl, name, id, rfl⟩
        dsimp only
        split
        · exact tallies_pure ⟨rfl, hs, rfl⟩
        · refine (tallies_record Builtin.interopRule).bind ?_ fun _ => keeps_pure _
          rintro _ _ rfl
          refine tallies_pure ⟨rfl, rfl, ?_⟩
          rw [hreading, Builtin.reading_interopHelper hf (hname rfl)]
      · intro new
        cases new with
        | none => exact keeps_pure _
        | some new =>
          dsimp only
          split
          · exact keeps_pure _
          · exact (keeps_count _).bind fun _ => keeps_pure _

/-! ## Walks -/

section

variable (hf : Reads f)

/-- What a walk makes of some phrases, with what it has put in. -/
def WalkedTo (f : Phrase → Option α) (n : Nat) (ps us : List Phrase) : Prop :=
  us.map Sigma.fst = ps.map Sigma.fst ∧
    Inserted (undefinedReading f) n (ps.flatMap fun p => p.2.reading f) (us.flatMap fun u => u.2.reading f)

theorem tallies_walkAll {c : Category} {g : (c : Category) → Tree c → Pass (Tree c)} {ps : List Phrase}
    (hkeeps : ∀ p ∈ ps, Keeps (g p.1 p.2))
    (h : ∀ p ∈ ps, Tallies helpers (g p.1 p.2) fun n u =>
      Inserted (undefinedReading f) n (p.2.reading f) (u.reading f))
    (build : List Phrase → Tree c) :
    Tallies helpers (walkAll g ps build) fun n u => ∃ us, u = build us ∧ WalkedTo f n ps us := by
  induction ps generalizing build with
  | nil => exact tallies_pure ⟨[], rfl, rfl, .refl⟩
  | cons p ps ih =>
    have hrest := fun q hq => hkeeps q (List.mem_cons_of_mem _ hq)
    rw [walkAll]
    refine (h p List.mem_cons_self).bind ?_ fun u => keeps_walkAll hrest _
    intro n u hu
    refine (ih hrest (fun q hq => h q (List.mem_cons_of_mem _ hq)) _).imp ?_
    rintro m _ ⟨us, rfl, halign, hus⟩
    refine ⟨⟨p.1, u⟩ :: us, rfl, congrArg (p.1 :: ·) halign, ?_⟩
    rw [List.flatMap_cons, List.flatMap_cons]
    exact hu.append hus

include hf

/-- What is read off a phrase after a walk of its parts. -/
theorem WalkedTo.rebuild {n : Nat} {c : Category} {t : Tree c} {us : List Phrase}
    (h : WalkedTo f n t.visited us) :
    Inserted (undefinedReading f) n (t.reading f) ((t.rebuild us).reading f) := by
  rw [hf.reading_rebuild h.1, reading_eq]
  have hself : Inserted (undefinedReading f) 0 (f ⟨c, t⟩).toList (f ⟨c, t⟩).toList := .refl
  have happend := hself.append h.2
  rw [Nat.zero_add] at happend
  exact happend

/-- The walk of the parts of a phrase, given the walk at a lower depth. -/
theorem tallies_descend {depth : Nat}
    (hwalk : ∀ c (t : Tree c), t.holes = [] → Tallies helpers (walk table depth c t) fun n u =>
      Inserted (undefinedReading f) n (t.reading f) (u.reading f))
    {c : Category} (t : Tree c) (hholes : t.holes = []) :
    Tallies helpers (t.descend (hookAt table depth)) fun n u =>
      ∃ us, u = t.rebuild us ∧ WalkedTo f n t.visited us := by
  induction t using induction_on_parts with
  | step c t ih =>
    have hkeeps : ∀ p ∈ t.visited,
        Keeps (hookAt table depth p.1 p.2 fun _ => p.2.descend (hookAt table depth)) := by
      intro p _
      rw [hookAt]
      split
      · exact keeps_walk depth p.1 p.2
      · exact keeps_descend (keeps_walk depth) p.2
    rw [descend_eq]
    apply tallies_walkAll hkeeps
    intro p hp
    have hpart := mem_parts_of_visited hp
    rw [hookAt]
    split
    · exact hwalk p.1 p.2 (holes_part hholes hpart)
    · refine (ih p hpart (holes_part hholes hpart)).imp ?_
      rintro n _ ⟨us, rfl, hus⟩
      exact hus.rebuild hf

/-- A walk changes what is read off a phrase by what the rule for `void 0` puts in, once for each time
that it is counted. -/
theorem tallies_walk (hname : helpers = true → ∀ name, f ⟨.name, name⟩ = Option.none)
    (htable : table.Offers bs helpers) (depth : Nat) {c : Category} {t : Tree c} (hholes : t.holes = []) :
    Tallies helpers (walk table depth c t) fun n u =>
      Inserted (undefinedReading f) n (t.reading f) (u.reading f) := by
  have hskims : Skims f := hf.skims
  induction depth generalizing c t with
  | zero => exact (tallies_fail _ (Q := fun _ _ => False)).bind (fun _ _ h => h.elim) fun _ => keeps_pure _
  | succ depth ih =>
    have hdescend : ∀ {c} (t : Tree c), t.holes = [] →
        Tallies helpers (t.descend (hookAt table depth)) fun n u =>
          ∃ us, u = t.rebuild us ∧ WalkedTo f n t.visited us :=
      fun t ht => tallies_descend hf (fun _ _ h => ih h) t ht
    rw [walk_succ]
    cases c with
    | block =>
      refine Tallies.unlessStopped ?_ _
      rw [sweep_eq_pure htable, pure_bind, blockOf_statements]
      refine (hdescend t hholes).bind ?_ fun _ => keeps_pure _
      rintro n _ ⟨us, rfl, hus⟩
      refine tallies_pure ?_
      rw [hskims.blockOf, hskims.splice, ← hskims.statements]
      exact hus.rebuild hf
    | body =>
      refine (hdescend t hholes).bind ?_ ?_
      · rintro n u ⟨us, rfl, hus⟩
        have hwalked := hus.rebuild hf
        generalize t.rebuild us = u at hwalked
        cases u with
        | body s =>
          cases s with
          | sequence inner =>
            refine (tallies_count (by intro _; rfl)).bind ?_ fun _ => keeps_pure _
            rintro _ _ rfl
            refine tallies_pure ?_
            rw [hskims.body, hskims.blockStmt]
            rw [hskims.body, hskims.sequence] at hwalked
            exact hwalked
          | _ => exact tallies_pure hwalked
      · intro b
        split
        · exact (keeps_count _).bind fun _ => keeps_pure _
        · exact keeps_pure _
    | stmt =>
      refine Tallies.unlessStopped ?_ _
      refine (tallies_simplifyStmt hf hname htable hholes).bind ?_ fun s => keeps_descend (keeps_walk depth) s
      rintro n s ⟨rfl, hs, hreading⟩
      refine (hdescend s hs).imp ?_
      rintro m _ ⟨us, rfl, hus⟩
      rw [← hreading, Nat.zero_add]
      exact hus.rebuild hf
    | expr =>
      refine Tallies.unlessStopped ?_ _
      refine (tallies_applyToExpr hf htable hholes).bind ?_ fun e => keeps_descend (keeps_walk depth) e
      rintro n e ⟨he, hinserted⟩
      refine (hdescend e he).imp ?_
      rintro m _ ⟨us, rfl, hus⟩
      exact hinserted.trans (hus.rebuild hf)
    | _ =>
      refine (hdescend t hholes).imp ?_
      rintro n _ ⟨us, rfl, hus⟩
      exact hus.rebuild hf

end

end Pass

namespace ScopeGraph

open Tree

variable {α : Type} {f : Phrase → Option α} {g : ScopeGraph}

theorem isLeaf_renamed {c : Category} {t : Tree c} (h : t.isLeaf = false) :
    (g.renamed t).isLeaf = false := by
  cases t with
  | ident _ _ => cases h
  | nameHole _ => cases h
  | comment _ => cases h
  | shorthand ident => rw [renamed_shorthand]; cases g.renamedBinding? ident <;> rfl
  | shortBinder ident value =>
    rw [renamed_shortBinder]
    cases g.renamedBinding? ident <;> cases g.renamed value <;> rfl
  | access computed _ _ _ => cases computed <;> rfl
  | _ => rfl

/-- Renaming leaves alone what is read off other forms than identifiers, if it leaves their reading
alone one by one. -/
theorem Skims.reading_renamed (hf : Skims f) (hname : ∀ name, f ⟨.name, name⟩ = Option.none)
    (hself : ∀ {c : Category} (t : Tree c), f ⟨c, g.renamed t⟩ = f ⟨c, t⟩) {c : Category}
    (t : Tree c) : (g.renamed t).reading f = t.reading f := by
  have hident (name : Name) : name.reading f = [] := by
    rw [reading_eq, hname]
    cases name <;> rfl
  induction t using induction_on_parts with
  | step c t ih =>
    cases hshort : isShort t with
    | false =>
      rw [reading_eq, reading_eq, hself, visited_renamed hshort, List.flatMap_map]
      congr 1
      apply List.flatMap_congr
      intro p hp
      exact ih p (mem_parts_of_visited hp)
    | true =>
      cases t with
      | shorthand ident =>
        have hshorthand (name : Name) : (Tree.shorthand name).reading f = [] :=
          reading_eq_nil (hf rfl) ⟨hident name, trivial⟩
        rw [renamed_shorthand, hshorthand]
        cases g.renamedBinding? ident with
        | none => exact hshorthand _
        | some b =>
          exact reading_eq_nil (hf rfl)
            ⟨reading_eq_nil (hf rfl) trivial, reading_eq_nil (hf rfl) ⟨hident (g.renameName ident), trivial⟩, trivial⟩
      | shortBinder ident value =>
        have hvalue : (g.renamed value).reading f = value.reading f :=
          ih ⟨_, value⟩ (List.mem_cons_of_mem _ List.mem_cons_self)
        have hplain (name : Name) (v : Tree (.option .expr)) :
            (Tree.shortBinder name v).reading f = v.reading f := by
          rw [reading_of_none (hf rfl)]
          show name.reading f ++ (v.reading f ++ []) = _
          rw [hident, List.append_nil, List.nil_append]
        have hexpanded (key : String) (name : Name) (v : Tree (.option .expr)) :
            (expandBinder key (.shortBinder name v)).reading f = v.reading f := by
          have hkey : (Tree.nameKey key).reading f = [] := reading_of_none (hf rfl)
          have hbinder : (Tree.nameBinder name).reading f = [] := reading_eq_nil (hf rfl) ⟨hident name, trivial⟩
          have hkeyed (target : Tree .binder) :
              (Tree.keyedBinder (.nameKey key) target).reading f = target.reading f := by
            rw [reading_of_none (hf rfl)]
            show (Tree.nameKey key).reading f ++ (target.reading f ++ []) = _
            rw [hkey, List.append_nil, List.nil_append]
          cases v with
          | none =>
            have hnone : (Tree.none : Tree (.option .expr)).reading f = [] := reading_of_none (hf rfl)
            exact (hkeyed _).trans (hbinder.trans hnone.symm)
          | some value =>
            refine (hkeyed _).trans ?_
            rw [reading_of_none (hf rfl), Skims.some hf]
            show (Tree.nameBinder name).reading f ++ (value.reading f ++ []) = _
            rw [hbinder, List.append_nil, List.nil_append]
        rw [renamed_shortBinder, hplain]
        cases g.renamedBinding? ident with
        | none => exact (hplain _ _).trans hvalue
        | some b => exact (hexpanded _ _ _).trans hvalue
      | _ => cases hshort

/-- Renaming leaves comments alone. -/
theorem reading_renamed (hf : Reads f) (hname : ∀ name, f ⟨.name, name⟩ = Option.none) {c : Category}
    (t : Tree c) : (g.renamed t).reading f = t.reading f := by
  refine Skims.reading_renamed hf.skims hname (fun {c} t => ?_) t
  cases hleaf : t.isLeaf with
  | false => rw [hf hleaf, hf (isLeaf_renamed hleaf)]
  | true =>
    cases t with
    | ident _ _ => rw [hname, hname]
    | nameHole _ => rw [hname, hname]
    | comment _ => rfl
    | _ => cases hleaf

end ScopeGraph

namespace RuleTable

open Pass Tree

variable {table full : RuleTable} {p : Program}

/-- A pass that does not stop has walked the program, and then renamed. -/
theorem reading_pass {α : Type} {f : Phrase → Option α} (hf : Reads f) {bs : List Builtin} {helpers : Bool}
    (hname : helpers = true → ∀ name, f ⟨.name, name⟩ = Option.none) (htable : table.Offers bs helpers)
    (hp : p.body.holes = []) {stats : Stats} (hok : (table.pass p).2 = .ok stats) :
    Inserted (undefinedReading f) (stats.applied.count "void-zero") (p.body.reading f)
      ((table.pass p).1.body.reading f) := by
  have hwalk := tallies_walk hf hname htable (depthLimit p.body) hp { graph := p.scopeGraph }
  rw [pass] at hok ⊢
  generalize (walk table (depthLimit p.body) .block p.body).run { graph := p.scopeGraph } = result
    at hok hwalk ⊢
  obtain ⟨body, s⟩ := result
  cases herror : s.error with
  | some e =>
    rw [outcome_of_some herror] at hok
    cases hok
  | none =>
    rw [outcome_of_none herror] at hok ⊢
    cases hok
    rcases hwalk with ⟨n, hadvanced, hinserted⟩ | hstop
    · have hcount : s.stats.applied.count "void-zero" = n := by
        have hvoided := hadvanced.voided
        simpa only [voided, List.count_nil, Nat.zero_add] using hvoided
      have hrenamed : (s.graph.renamed body).reading f = body.reading f := by
        cases helpers with
        | false =>
          rw [show s.graph = p.scopeGraph from hadvanced.unchanged rfl,
            p.sound_and_housed.1.renamed_eq_self]
        | true => exact ScopeGraph.reading_renamed hf (hname rfl) body
      rw [ScopeGraph.fst_applyRenames, hrenamed, hcount]
      exact hinserted
    · exact absurd herror hstop

/-- **A pass loses, duplicates and reorders nothing.** Whatever built-in rules are in the table: if a pass
over a program without holes does not stop, the comments of the program are the same in the same order,
and so are its identifiers with their positions, provided that the rule for interop helpers is not among
the rules. Only identifiers `undefined` without a position are put in, one for each time that the rule
for `void 0` is counted. -/
theorem conserved_pass (hfull : builtin = .ok full) (hsub : table.rules.Sublist full.rules)
    (hp : p.body.holes = []) {stats : Stats} (hok : (table.pass p).2 = .ok stats) :
    (table.pass p).1.body.comments = p.body.comments ∧
      ("interop-require-default" ∉ table.names →
        Inserted [.ident "undefined" Option.none] (stats.applied.count "void-zero") p.body.identifiers
          (table.pass p).1.body.identifiers) := by
  constructor
  · obtain ⟨bs, helpers, htable, -⟩ := offers_of_sublist hfull hsub
    have hread := reading_pass reads_comment? (fun _ name => by cases name <;> rfl) htable hp hok
    exact hread.eq_of_nil
  · intro hhelper
    obtain ⟨bs, htable⟩ := exists_offers hfull hsub hhelper
    have hname : false = true → ∀ name, identifier? ⟨.name, name⟩ = Option.none := nofun
    exact reading_pass reads_identifier? hname htable hp hok

/-- The program
`/*a*/ x && f(void 0), y ? void 0 : x;`
`if (x) /*b*/ y;` -/
def annotatedUse : Program :=
  let use (text : String) (n : Nat) : Expr := .identExpr (.ident text (some n))
  let zero : Expr := .unary .void (.literal (.number ⟨0⟩))
  { body := blockOf [
      .comment "/*a*/",
      .exprStmt (.comma (ofList [
        .binary .and (use "x" 6) (.call false (use "f" 11) (ofList [zero])),
        .conditional (use "y" 22) zero (use "x" 35)])),
      .ifStmt (use "x" 42)
        (.body (.sequence (blockOf [.comment "/*b*/", .exprStmt (use "y" 51)]))) .none] }

/-- Two constants are written out, and two comments stay. -/
theorem conserved_pass_annotatedUse :
    ∃ full stats, builtin = .ok full ∧ helperless.rules.Sublist full.rules ∧
      annotatedUse.body.holes = [] ∧ (helperless.pass annotatedUse).2 = .ok stats ∧
      "interop-require-default" ∉ helperless.names ∧ stats.applied.count "void-zero" = 2 ∧
      (helperless.pass annotatedUse).1.body.comments = annotatedUse.body.comments ∧
      annotatedUse.body.comments = ["/*a*/", "/*b*/"] ∧
      Inserted [.ident "undefined" Option.none] (stats.applied.count "void-zero")
        annotatedUse.body.identifiers (helperless.pass annotatedUse).1.body.identifiers := by
  have hsub : helperless.rules.Sublist (Builtin.all.map Builtin.rule ++ [Builtin.interopRule]) :=
    List.sublist_append_left _ _
  have hholes : annotatedUse.body.holes = [] := by decide +kernel
  have hhelper : "interop-require-default" ∉ helperless.names := by decide +kernel
  have hok : (helperless.pass annotatedUse).2 = .ok {
      applied := ["and-statement", "void-zero", "ternary-statement", "void-zero", "if-braces"],
      split := 1 } := by decide +kernel
  have hconserved := conserved_pass builtin_eq hsub hholes hok
  exact ⟨_, _, builtin_eq, hsub, hholes, hok, hhelper, by decide, hconserved.1, by decide +kernel,
    hconserved.2 hhelper⟩

end RuleTable

end Unminify
