import Mathlib.Data.List.Forall2
import Unminify.Pattern.Compile
import Unminify.Proofs.Grammar.Sources

/-!
# Compiling patterns

A text is a pattern unless it misuses a hole: a statement hole stands elsewhere than alone, an
expression hole stands for a name, or a hole has a modifier that its family does not have
(`Tree.Misuses`). What a pattern is compiled to is clean, in that nothing is left in it of how it was
written.

* `compileHook` is one walk that looks at holes in three places, before it goes on to the parts of a
  phrase. What comes out of it is said once for all phrases (`outcome_visit`): an error if the phrase
  misuses a hole, and otherwise a clean phrase, but for the comments in statement lists, which go when
  the block around them is put together.
* `compile_exact` is about whole texts.
-/

namespace Unminify

/-! ## Misused holes -/

namespace Tree

/-- The hole that an identifier is written for. -/
def written? (n : Name) : Option Hole := n.nameText?.bind Hole.ofText?

/-- An identifier is written for a hole of a family. -/
def Writes (n : Name) (family : HoleFamily) : Prop := ∃ index, n.written? = Option.some ⟨family, index⟩

/-- A statement hole that stands alone, or with its modifier, as an expression statement. -/
inductive StandsAlone : Phrase → Prop
  | bare {n : Name} (h : n.Writes .statement) : StandsAlone ⟨_, .exprStmt (.identExpr n)⟩
  | multiLine {n : Name} (h : n.Writes .statement) :
    StandsAlone ⟨_, .exprStmt (.access false false (.identExpr n) (.literal (.string "multiLine")))⟩

theorem StandsAlone.category {c : Category} {t : Tree c} (h : StandsAlone ⟨c, t⟩) : c = .stmt := by
  cases h <;> rfl

/-- What a walk from a phrase comes to besides the statement holes that stand alone. -/
inductive Reaches : Phrase → Phrase → Prop
  | refl (p : Phrase) : Reaches p p
  | part {p q r : Phrase} (halone : ¬ StandsAlone p) (hq : q ∈ p.2.visited) (hr : Reaches q r) : Reaches p r

/-- The name that a phrase binds, declares or stands for a property with. -/
def plainName? : {c : Category} → Tree c → Option Name
  | _, .nameBinder n => n
  | _, .shortBinder n _ => n
  | _, .function _ _ (.some n) _ _ => n
  | _, .classDef (.some n) _ _ => n
  | _, .shorthand n => n
  | _, _ => Option.none

/-- A plain dot access on a hole, with a property that is no modifier of the hole's family. -/
def Mismodified : {c : Category} → Tree c → Prop
  | _, .access false false (.identExpr n) property =>
    (n.Writes .statement ∧ property ≠ .literal (.string "multiLine")) ∨
      (n.Writes .expression ∧ property ≠ .literal (.string "orDeclaration"))
  | _, _ => False

/-- A hole is misused in a place that walks reach. -/
inductive Misuses {c : Category} (t : Tree c) : Prop
  /-- A statement hole does not stand alone. -/
  | stray {n : Name} (hreach : Reaches ⟨c, t⟩ ⟨.name, n⟩) (h : n.Writes .statement)
  /-- An expression hole stands for a name. -/
  | named {q : Phrase} {n : Name} (hq : q ∈ t.reached) (hn : q.2.plainName? = Option.some n)
    (h : n.Writes .expression)
  /-- A hole has a modifier of another kind. -/
  | modified {q : Phrase} (hq : q ∈ t.reached) (h : q.2.Mismodified)

theorem Writes.unique {n : Name} {f g : HoleFamily} (h : n.Writes f) (h' : n.Writes g) : f = g := by
  obtain ⟨i, hi⟩ := h
  obtain ⟨j, hj⟩ := h'
  cases hi.symm.trans hj
  rfl

section

variable {c : Category} {t : Tree c}

/-- A phrase that is no statement hole misuses a hole itself, or in one of the parts that are
visited. -/
theorem misuses_iff (h : ¬ StandsAlone ⟨c, t⟩) :
    t.Misuses ↔
      ((∃ n : Name, (⟨c, t⟩ : Phrase) = ⟨_, n⟩ ∧ n.Writes .statement) ∨
        (∃ n, t.plainName? = Option.some n ∧ n.Writes .expression) ∨ t.Mismodified) ∨
      ∃ p ∈ t.visited, p.2.Misuses := by
  constructor
  · intro hmisuse
    cases hmisuse with
    | stray hreach hn =>
      cases hreach with
      | refl => exact .inl (.inl ⟨_, rfl, hn⟩)
      | part _ hq hr => exact .inr ⟨_, hq, .stray hr hn⟩
    | named hq hn hwrites =>
      rcases mem_reached.mp hq with rfl | ⟨p, hp, hq⟩
      · exact .inl (.inr (.inl ⟨_, hn, hwrites⟩))
      · exact .inr ⟨p, hp, .named hq hn hwrites⟩
    | modified hq hmodified =>
      rcases mem_reached.mp hq with rfl | ⟨p, hp, hq⟩
      · exact .inl (.inr (.inr hmodified))
      · exact .inr ⟨p, hp, .modified hq hmodified⟩
  · rintro ((⟨n, hname, hn⟩ | ⟨n, hn, hwrites⟩ | hmodified) | ⟨p, hp, hmisuse⟩)
    · exact .stray (hname ▸ .refl _) hn
    · exact .named t.self_mem_reached hn hwrites
    · exact .modified t.self_mem_reached hmodified
    · cases hmisuse with
      | stray hreach hn => exact .stray (.part h hp hreach) hn
      | named hq hn hwrites => exact .named (mem_reached.mpr (.inr ⟨p, hp, hq⟩)) hn hwrites
      | modified hq hmodified => exact .modified (mem_reached.mpr (.inr ⟨p, hp, hq⟩)) hmodified

theorem not_misuses_of_standsAlone (h : StandsAlone ⟨c, t⟩) : ¬ t.Misuses := by
  intro hmisuse
  have hreached : ∀ q ∈ t.reached, q.2.plainName? = Option.none ∧ ¬ q.2.Mismodified := by
    have hname : ∀ n : Name, ∀ q ∈ n.reached, q.2.plainName? = Option.none ∧ ¬ q.2.Mismodified := fun n =>
      forall_reached.mpr (by cases n <;> exact ⟨⟨rfl, id⟩, nofun⟩)
    have hident : ∀ n : Name, ∀ q ∈ (identExpr n).reached, q.2.plainName? = Option.none ∧ ¬ q.2.Mismodified :=
      fun n => forall_reached.mpr ⟨⟨rfl, id⟩, List.forall_mem_singleton.mpr (hname n)⟩
    cases h with
    | bare => exact forall_reached.mpr ⟨⟨rfl, id⟩, List.forall_mem_singleton.mpr (hident _)⟩
    | multiLine hn =>
      refine forall_reached.mpr ⟨⟨rfl, id⟩, List.forall_mem_singleton.mpr ?_⟩
      refine forall_reached.mpr ⟨⟨rfl, ?_⟩, List.forall_mem_singleton.mpr (hident _)⟩
      rintro (⟨-, hne⟩ | ⟨hn', -⟩)
      · exact hne rfl
      · cases hn.unique hn'
  cases hmisuse with
  | stray hreach hn =>
    cases hreach with
    | refl => cases h
    | part halone => exact halone h
  | named hq hn => cases (hreached _ hq).1.symm.trans hn
  | modified hq hmodified => exact (hreached _ hq).2 hmodified

end

/-- A name, or a name that may be absent. -/
def bareName? : {c : Category} → Tree c → Option Name
  | .name, n => n
  | .option .name, .some n => Option.some n
  | _, _ => Option.none

/-- Compiling a phrase fails: the phrase misuses a hole, or is a name that an expression hole stands
for. -/
def Fails {c : Category} (t : Tree c) : Prop :=
  t.Misuses ∨ ∃ n, t.bareName? = Option.some n ∧ n.Writes .expression

end Tree

/-- Categories of phrases in programs: there are no lists of names, of lists or of statement lists that
may be absent, and the like. -/
def Category.isUsual : Category → Bool
  | .list .name | .list (.list _) => false
  | .list (.option .name) | .list (.option .stmt) | .list (.option (.list _)) | .list (.option (.option _)) => false
  | .option .stmt | .option (.list _) | .option (.option _) => false
  | _ => true

namespace Tree

section

variable {c : Category} {t : Tree c}

theorem isUsual_visited (hc : c.isUsual = true) : ∀ p ∈ t.visited, p.1.isUsual = true := by
  refine Each.of_mem (motive := fun c _ => c.isUsual = true) ?_
  cases t
  case cons c _ _ =>
    refine ⟨?_, hc, trivial⟩
    cases c with
    | option c => cases c <;> first | rfl | exact absurd hc Bool.false_ne_true
    | _ => first | rfl | exact absurd hc Bool.false_ne_true
  case some c _ =>
    refine ⟨?_, trivial⟩
    cases c <;> first | rfl | exact absurd hc Bool.false_ne_true
  case access computed _ _ _ => cases computed <;> exact ⟨rfl, by trivial⟩
  all_goals first
    | exact trivial
    | exact ⟨rfl, trivial⟩
    | exact ⟨rfl, rfl, trivial⟩
    | exact ⟨rfl, rfl, rfl, trivial⟩
    | exact ⟨rfl, rfl, rfl, rfl, trivial⟩

theorem bareName?_eq_none (hname : c ≠ .name) (hoption : c ≠ .option .name) : t.bareName? = Option.none := by
  unfold bareName?
  split
  · exact absurd rfl hname
  · exact absurd rfl hoption
  · rfl

/-- The names directly in a phrase other than an expression are plain. -/
theorem filterMap_bareName? (hc : c.isUsual = true) (hname : c ≠ .name) (hident : ∀ n, (⟨c, t⟩ : Phrase) ≠ ⟨_, .identExpr n⟩) :
    t.visited.filterMap (·.2.bareName?) = t.plainName?.toList ++ t.bareName?.toList := by
  cases t
  case identExpr n => exact absurd rfl (hident n)
  case ident => exact absurd rfl hname
  case nameHole => exact absurd rfl hname
  case cons c h t =>
    have hhead : h.bareName? = Option.none := by
      apply bareName?_eq_none
      · rintro rfl
        cases hc
      · rintro rfl
        cases hc
    have htail : t.bareName? = Option.none := bareName?_eq_none nofun nofun
    show [⟨c, h⟩, ⟨_, t⟩].filterMap (fun p : Phrase => p.2.bareName?) = _
    simp only [List.filterMap_cons, List.filterMap_nil, hhead, htail]
    rfl
  case some c t =>
    show [⟨c, t⟩].filterMap (fun p : Phrase => p.2.bareName?) = _
    cases c
    case option => cases hc
    all_goals rfl
  case none c => cases c <;> rfl
  case access computed _ _ _ => cases computed <;> rfl
  case function _ _ name _ _ => cases name <;> rfl
  case classDef name _ _ => cases name <;> rfl
  all_goals rfl

/-- Away from the places where compiling looks for holes, a phrase fails if one of its parts does. -/
theorem fails_iff (hc : c.isUsual = true) (hname : c ≠ .name) (halone : ¬ StandsAlone ⟨c, t⟩)
    (hmodified : ¬ t.Mismodified) (hident : ∀ n, (⟨c, t⟩ : Phrase) = ⟨_, .identExpr n⟩ → ¬ n.Writes .expression) :
    t.Fails ↔ ∃ p ∈ t.visited, p.2.Fails := by
  have hbare : (∃ p ∈ t.visited, ∃ n, p.2.bareName? = Option.some n ∧ n.Writes .expression) ↔
      (∃ n, t.plainName? = Option.some n ∧ n.Writes .expression) ∨
        ∃ n, t.bareName? = Option.some n ∧ n.Writes .expression := by
    by_cases h : ∃ n, (⟨c, t⟩ : Phrase) = ⟨_, .identExpr n⟩
    · obtain ⟨n, h⟩ := h
      have hn := hident n h
      cases h
      constructor
      · rintro ⟨p, hp, m, hm, hwrites⟩
        obtain rfl := List.mem_singleton.mp hp
        cases hm
        exact absurd hwrites hn
      · rintro (⟨m, hm, -⟩ | ⟨m, hm, -⟩) <;> cases hm
    · have hnames := filterMap_bareName? hc hname fun n hn => h ⟨n, hn⟩
      have hmem : ∀ n, (∃ p ∈ t.visited, p.2.bareName? = Option.some n) ↔
          t.plainName? = Option.some n ∨ t.bareName? = Option.some n := by
        intro n
        rw [← List.mem_filterMap, hnames, List.mem_append, Option.mem_toList, Option.mem_toList]
      constructor
      · rintro ⟨p, hp, n, hn, hwrites⟩
        rcases (hmem n).mp ⟨p, hp, hn⟩ with hn | hn
        · exact .inl ⟨n, hn, hwrites⟩
        · exact .inr ⟨n, hn, hwrites⟩
      · rintro (⟨n, hn, hwrites⟩ | ⟨n, hn, hwrites⟩)
        · obtain ⟨p, hp, hn⟩ := (hmem n).mpr (.inl hn)
          exact ⟨p, hp, n, hn, hwrites⟩
        · obtain ⟨p, hp, hn⟩ := (hmem n).mpr (.inr hn)
          exact ⟨p, hp, n, hn, hwrites⟩
  have hstray : ¬ ∃ n : Name, (⟨c, t⟩ : Phrase) = ⟨_, n⟩ ∧ n.Writes .statement := by
    rintro ⟨n, hn, -⟩
    exact hname (congrArg Sigma.fst hn)
  simp only [Fails, and_or_left, exists_or, hbare]
  simp only [misuses_iff halone, hstray, hmodified, false_or, or_false, or_assoc, or_left_comm]

/-- Statements stand in statement lists, in bodies and nowhere else. -/
theorem visited_ne_stmt (hc : c.isUsual = true) (hlist : c ≠ .list .stmt) (hblock : c ≠ .block) (hbody : c ≠ .body) :
    ∀ p ∈ t.visited, p.1 ≠ .stmt ∧ p.1 ≠ .list .stmt := by
  refine Each.of_mem (motive := fun c _ => c ≠ .stmt ∧ c ≠ .list .stmt) ?_
  cases t
  case body => exact absurd rfl hbody
  case stmts => exact absurd rfl hblock
  case cons c _ _ =>
    refine ⟨⟨?_, ?_⟩, ⟨nofun, ?_⟩, trivial⟩
    · rintro rfl
      exact hlist rfl
    · rintro rfl
      cases hc
    · exact hlist
  case some c _ =>
    refine ⟨⟨?_, ?_⟩, trivial⟩
    · rintro rfl
      cases hc
    · rintro rfl
      cases hc
  case access computed _ _ _ => cases computed <;> exact ⟨⟨nofun, nofun⟩, by trivial⟩
  all_goals first
    | exact trivial
    | exact ⟨⟨nofun, nofun⟩, trivial⟩
    | exact ⟨⟨nofun, nofun⟩, ⟨nofun, nofun⟩, trivial⟩
    | exact ⟨⟨nofun, nofun⟩, ⟨nofun, nofun⟩, ⟨nofun, nofun⟩, trivial⟩
    | exact ⟨⟨nofun, nofun⟩, ⟨nofun, nofun⟩, ⟨nofun, nofun⟩, ⟨nofun, nofun⟩, trivial⟩

end

/-! ## Clean phrases -/

/-- Whether a phrase is neither a comment nor a sequence, nor an identifier that has a position or is
written for a hole. -/
def isBare : {c : Category} → Tree c → Bool
  | _, .ident text id => id.isNone && (Hole.ofText? text).isNone
  | _, .comment _ => false
  | _, .sequence _ => false
  | _, _ => true

/-- Nothing is left of how a phrase was written. -/
def Clean {c : Category} (t : Tree c) : Prop := t.Everywhere fun p => p.2.isBare = true

section

variable {c : Category} {t : Tree c}

theorem isBare_rebuild (us : List Phrase) : (t.rebuild us).isBare = t.isBare := by cases t <;> rfl

/-- A phrase with clean parts is clean. -/
theorem clean_rebuild {us : List Phrase} (halign : us.map Sigma.fst = t.visited.map Sigma.fst)
    (hdot : t.dotNamed = true) (hbare : t.isBare = true) (hus : ∀ u ∈ us, u.2.Clean) :
    (t.rebuild us).Clean := by
  refine everywhere_iff.mpr ⟨(isBare_rebuild us).trans hbare, fun p hp => ?_⟩
  rw [parts_eq, visited_rebuild halign, unvisited_rebuild, List.mem_append] at hp
  rcases hp with hp | hp
  · exact hus p hp
  · -- what is not visited is the name of a dot access
    cases t with
    | access computed optional target property =>
      cases computed with
      | true => cases hp
      | false =>
        obtain rfl := List.mem_singleton.mp hp
        cases property with
        | literal => exact everywhere_iff.mpr ⟨rfl, nofun⟩
        | _ => cases hdot
    | _ => cases hp

theorem clean_blockOf {ss : List Stmt} (h : ∀ s ∈ ss, s.Clean) : (blockOf ss).Clean := by
  refine everywhere_iff.mpr ⟨rfl, List.forall_mem_singleton.mpr ?_⟩
  exact (everywhere_ofList_iff fun t => by cases t <;> rfl).mpr h

theorem Clean.statements {b : Block} (h : b.Clean) : ∀ s ∈ b.statements, s.Clean := by
  rw [← blockOf_statements b] at h
  have hitems := (everywhere_iff.mp h).2 _ List.mem_cons_self
  exact (everywhere_ofList_iff fun t => by cases t <;> rfl).mp hitems

end

end Tree

/-- Whether an error is about a hole. -/
def CompileError.isMisuse : CompileError → Bool
  | unknownModifier _ _ | misplaced _ => true
  | _ => false

namespace Pattern

/-! ## What compiling does -/

/-- A block without its comments. -/
def ClearedBlock (b b' : Block) : Prop :=
  b'.Clean ∧ b'.statements.length = (b.statements.filter (!isComment ·)).length

/-- What a phrase is compiled to. Comments stay in statement lists, and sequences stay sequences. -/
def Cleared : (c : Category) → Tree c → Tree c → Prop
  | .stmt, .comment text, u => u = .comment text
  | .stmt, .sequence b, u => ∃ b', u = .sequence b' ∧ ClearedBlock b b'
  | .block, b, u => ClearedBlock b u
  | .list .stmt, l, u =>
    List.Forall₂ (fun s v => isComment v = isComment s ∧ (isComment s = false → v.Clean)) l.toList u.toList
  | _, _, u => u.Clean

section

variable {c : Category} {t u : Tree c}

theorem Cleared.clean (h : Cleared c t u) (hstmt : c ≠ .stmt) (hlist : c ≠ .list .stmt) : u.Clean := by
  unfold Cleared at h
  split at h
  · exact absurd rfl hstmt
  · exact absurd rfl hstmt
  · exact h.1
  · exact absurd rfl hlist
  · exact h

theorem Cleared.proper {s v : Stmt} (h : Cleared .stmt s v) (hproper : s.isProper = true) : v.Clean := by
  cases s <;> first | exact h | cases hproper

theorem cleared_of_clean (h : u.Clean) (hstmt : c ≠ .stmt) (hblock : c ≠ .block) (hlist : c ≠ .list .stmt) :
    Cleared c t u := by
  unfold Cleared
  split
  · exact absurd rfl hstmt
  · exact absurd rfl hstmt
  · exact absurd rfl hblock
  · exact absurd rfl hlist
  · exact h

end

/-- What comes out of compiling a phrase. -/
structure Outcome {c : Category} (t : Tree c) (r : Except CompileError (Tree c)) : Prop where
  fails : t.Fails → ∃ e, r = .error e ∧ e.isMisuse = true
  succeeds : ¬ t.Fails → ∃ u, r = .ok u ∧ Cleared c t u

section

variable {c : Category} {t : Tree c}

theorem outcome_walkAll {ps : List Phrase} {f : (c : Category) → Tree c → Except CompileError (Tree c)}
    (h : ∀ p ∈ ps, Outcome p.2 (f p.1 p.2)) (build : List Phrase → Tree c) :
    ((∃ p ∈ ps, p.2.Fails) → ∃ e, Tree.walkAll f ps build = .error e ∧ e.isMisuse = true) ∧
      ((¬ ∃ p ∈ ps, p.2.Fails) → ∃ us, Tree.Related Cleared ps us ∧ Tree.walkAll f ps build = .ok (build us)) := by
  induction ps generalizing build with
  | nil => exact ⟨nofun, fun _ => ⟨[], .nil, rfl⟩⟩
  | cons p ps ih =>
    have hp := h p List.mem_cons_self
    rw [Tree.walkAll]
    by_cases hfails : p.2.Fails
    · obtain ⟨e, he, hmisuse⟩ := hp.fails hfails
      rw [he]
      exact ⟨fun _ => ⟨e, rfl, hmisuse⟩, fun hnone => absurd ⟨p, List.mem_cons_self, hfails⟩ hnone⟩
    · obtain ⟨u, hu, hcleared⟩ := hp.succeeds hfails
      obtain ⟨hrest, hrest'⟩ := ih (fun q hq => h q (List.mem_cons_of_mem _ hq)) fun us => build (⟨p.1, u⟩ :: us)
      rw [hu]
      constructor
      · rintro ⟨q, hq, hqfails⟩
        rcases List.mem_cons.mp hq with rfl | hq
        · exact absurd hqfails hfails
        · exact hrest ⟨q, hq, hqfails⟩
      · intro hnone
        have hothers : ¬ ∃ q ∈ ps, q.2.Fails := by
          rintro ⟨q, hq, hqfails⟩
          exact hnone ⟨q, List.mem_cons_of_mem _ hq, hqfails⟩
        obtain ⟨us, hus, hwalk⟩ := hrest' hothers
        exact ⟨⟨p.1, u⟩ :: us, .cons hcleared hus, hwalk⟩

/-- A phrase whose parts are compiled. -/
theorem descend_cases (h : ∀ p ∈ t.visited, Outcome p.2 (p.2.visit compileHook))
    (hfails : t.Fails ↔ ∃ p ∈ t.visited, p.2.Fails) :
    (t.Fails → ∃ e, t.descend compileHook = .error e ∧ e.isMisuse = true) ∧
      (¬ t.Fails → ∃ us, Tree.Related Cleared t.visited us ∧ t.descend compileHook = .ok (t.rebuild us)) := by
  rw [Tree.descend_eq, hfails]
  exact outcome_walkAll h t.rebuild

theorem outcome_descend (h : ∀ p ∈ t.visited, Outcome p.2 (p.2.visit compileHook))
    (hfails : t.Fails ↔ ∃ p ∈ t.visited, p.2.Fails)
    (hclear : ∀ us, Tree.Related Cleared t.visited us → Cleared c t (t.rebuild us)) :
    Outcome t (t.descend compileHook) := by
  obtain ⟨hfail, hsucceed⟩ := descend_cases h hfails
  refine ⟨hfail, fun hf => ?_⟩
  obtain ⟨us, hus, hdescend⟩ := hsucceed hf
  exact ⟨t.rebuild us, hdescend, hclear us hus⟩

/-- A phrase that is neither a list of statements nor around one is clean when its parts are. -/
theorem clean_of_related (hc : c.isUsual = true) (hlist : c ≠ .list .stmt) (hblock : c ≠ .block)
    (hbody : c ≠ .body) (hdot : t.dotNamed = true) (hbare : t.isBare = true) {us : List Phrase}
    (hus : Tree.Related Cleared t.visited us) : (t.rebuild us).Clean := by
  refine Tree.clean_rebuild hus.aligned.symm hdot hbare fun u hu => ?_
  obtain ⟨p, hp, hcleared⟩ := hus.exists_of_mem hu
  obtain ⟨hstmt, hstmts⟩ := Tree.visited_ne_stmt hc hlist hblock hbody _ hp
  exact hcleared.clean hstmt hstmts

/-! ## Holes -/

theorem holeNamed?_eq_some {family : HoleFamily} {n : Name} {hole : Hole} :
    holeNamed? family n = some hole ↔ n.written? = some hole ∧ hole.family = family := by
  have h : holeNamed? family n = n.written?.bind fun hole => if hole.family = family then some hole else none := by
    rw [Tree.written?, Option.bind_assoc]
    rfl
  rw [h, Option.bind_eq_some_iff]
  constructor
  · rintro ⟨hole', hwritten, hsome⟩
    split at hsome
    next hfamily =>
      cases hsome
      exact ⟨hwritten, hfamily⟩
    next => cases hsome
  · rintro ⟨hwritten, hfamily⟩
    exact ⟨hole, hwritten, if_pos hfamily⟩

theorem holeNamed?_eq_none {family : HoleFamily} {n : Name} (h : holeNamed? family n = none) :
    ¬ n.Writes family := by
  rintro ⟨index, hwritten⟩
  cases h.symm.trans (holeNamed?_eq_some.mpr ⟨hwritten, rfl⟩)

/-- The ways in which an expression is a hole of a family. -/
inductive HoleForm (family : HoleFamily) (modifier : String) : Expr → Except CompileError (Option (Nat × Bool)) → Prop
  | bare {n : Name} {index : Nat} (h : n.written? = some ⟨family, index⟩) :
    HoleForm family modifier (.identExpr n) (.ok (some (index, false)))
  | modified {n : Name} {index : Nat} (h : n.written? = some ⟨family, index⟩) :
    HoleForm family modifier (.access false false (.identExpr n) (.literal (.string modifier))) (.ok (some (index, true)))
  | mismodified {n : Name} {index : Nat} {found : String} (h : n.written? = some ⟨family, index⟩) (hne : found ≠ modifier) :
    HoleForm family modifier (.access false false (.identExpr n) (.literal (.string found)))
      (.error (.unknownModifier ⟨family, index⟩ found))
  | none {e : Expr} (hident : ∀ n, e = .identExpr n → ¬ n.Writes family)
      (haccess : ∀ n property, e = .access false false (.identExpr n) property → ¬ n.Writes family) :
    HoleForm family modifier e (.ok none)

theorem holeForm_holeWith? (family : HoleFamily) (modifier : String) {e : Expr} (hdot : e.dotNamed = true) :
    HoleForm family modifier e (holeWith? family modifier e) := by
  cases e with
  | identExpr n =>
    cases hnamed : holeNamed? family n with
    | none =>
      have hwrites := holeNamed?_eq_none hnamed
      simp only [holeWith?, holeAccess?, hnamed, Option.map_none]
      refine .none ?_ nofun
      rintro _ ⟨⟩
      exact hwrites
    | some hole =>
      obtain ⟨hwritten, rfl⟩ := holeNamed?_eq_some.mp hnamed
      simp only [holeWith?, holeAccess?, hnamed, Option.map_some]
      exact .bare hwritten
  | access computed optional target property =>
    cases computed with
    | true => exact .none nofun nofun
    | false =>
      obtain ⟨found, rfl⟩ : ∃ found, property = .literal (.string found) := by
        cases property with
        | literal l =>
          cases l with
          | string found => exact ⟨found, rfl⟩
          | _ => cases hdot
        | _ => cases hdot
      cases optional with
      | true => exact .none nofun nofun
      | false =>
        cases target with
        | identExpr n =>
          cases hnamed : holeNamed? family n with
          | none =>
            have hwrites := holeNamed?_eq_none hnamed
            simp only [holeWith?, holeAccess?, hnamed, Option.map_none]
            refine .none nofun ?_
            rintro _ _ ⟨⟩
            exact hwrites
          | some hole =>
            obtain ⟨hwritten, rfl⟩ := holeNamed?_eq_some.mp hnamed
            simp only [holeWith?, holeAccess?, hnamed, Option.map_some]
            by_cases hfound : found = modifier
            · subst hfound
              rw [if_pos rfl]
              exact .modified hwritten
            · rw [if_neg hfound]
              exact .mismodified hwritten hfound
        | _ => exact .none nofun nofun
  | _ => exact .none nofun nofun

/-! ## Phrases -/

theorem misuses_name {n : Name} : n.Misuses ↔ n.Writes .statement := by
  have halone : ¬ Tree.StandsAlone ⟨_, n⟩ := fun h => nomatch h.category
  have hplain : n.plainName? = none := by cases n <;> rfl
  have hmodified : ¬ n.Mismodified := by cases n <;> exact id
  have hvisited : n.visited = [] := by cases n <;> rfl
  rw [Tree.misuses_iff halone]
  constructor
  · rintro ((⟨m, hm, hwrites⟩ | ⟨m, hm, -⟩ | h) | ⟨p, hp, -⟩)
    · cases hm
      exact hwrites
    · cases hplain.symm.trans hm
    · exact absurd h hmodified
    · rw [hvisited] at hp
      cases hp
  · intro hwrites
    exact .inl (.inl ⟨n, rfl, hwrites⟩)

theorem fails_name {n : Name} : n.Fails ↔ n.Writes .statement ∨ n.Writes .expression := by
  have hbare : (∃ m, n.bareName? = some m ∧ m.Writes .expression) ↔ n.Writes .expression := by
    constructor
    · rintro ⟨m, hm, hwrites⟩
      cases hm
      exact hwrites
    · exact fun hwrites => ⟨n, rfl, hwrites⟩
  rw [Tree.Fails, misuses_name, hbare]

/-- An expression fails to be compiled if it misuses a hole itself or in a part. -/
theorem fails_expr {e : Expr} :
    e.Fails ↔ e.Mismodified ∨ ∃ p ∈ e.visited, p.2.Misuses := by
  have halone : ¬ Tree.StandsAlone ⟨_, e⟩ := fun h => nomatch h.category
  have hplain : e.plainName? = none := by cases e <;> rfl
  rw [Tree.Fails, Tree.misuses_iff halone, hplain]
  constructor
  · rintro (((⟨n, hn, -⟩ | ⟨n, hn, -⟩ | h) | h) | ⟨n, hn, -⟩)
    · cases hn
    · cases hn
    · exact .inl h
    · exact .inr h
    · cases hn
  · rintro (h | h)
    · exact .inl (.inl (.inr (.inr h)))
    · exact .inl (.inr h)

theorem fails_identExpr {n : Name} : (Tree.identExpr n).Fails ↔ n.Writes .statement := by
  rw [fails_expr, ← misuses_name]
  constructor
  · rintro (h | ⟨p, hp, h⟩)
    · exact h.elim
    · obtain rfl := List.mem_singleton.mp hp
      exact h
  · exact fun h => .inr ⟨_, List.mem_cons_self, h⟩

/-- A hole with a modifier behind it fails to be compiled as an expression, unless it is one. -/
theorem fails_access {n : Name} {text : String} :
    (Tree.access false false (.identExpr n) (.literal (.string text))).Fails ↔
      n.Writes .statement ∨ (n.Writes .expression ∧ text ≠ "orDeclaration") := by
  have hstring : ∀ modifier, (Tree.literal (.string text) ≠ .literal (.string modifier)) ↔ text ≠ modifier := by
    intro modifier
    simp
  rw [fails_expr]
  constructor
  · rintro ((⟨h, -⟩ | ⟨h, hne⟩) | ⟨p, hp, h⟩)
    · exact .inl h
    · exact .inr ⟨h, (hstring _).mp hne⟩
    · obtain rfl := List.mem_singleton.mp hp
      exact .inl (fails_identExpr.mp (.inl h))
  · rintro (h | ⟨h, hne⟩)
    · rcases fails_identExpr.mpr h with h | ⟨_, h, -⟩
      · exact .inr ⟨_, List.mem_cons_self, h⟩
      · cases h
    · exact .inl (.inr ⟨h, (hstring _).mpr hne⟩)

/-- An identifier fails to be compiled if it is written for a hole that is not generic. -/
theorem outcome_name (n : Name) : Outcome n (compileName n) := by
  cases n with
  | nameHole index =>
    refine ⟨fun h => ?_, fun _ => ⟨.nameHole index, rfl, Tree.everywhere_iff.mpr ⟨rfl, nofun⟩⟩⟩
    rcases fails_name.mp h with ⟨_, h⟩ | ⟨_, h⟩ <;> cases h
  | ident text id =>
    have hwritten : (Tree.ident text id).written? = Hole.ofText? text := rfl
    rw [compileName]
    cases hhole : Hole.ofText? text with
    | none =>
      refine ⟨fun h => ?_, fun _ => ⟨.ident text none, rfl, Tree.everywhere_iff.mpr ⟨?_, nofun⟩⟩⟩
      · rcases fails_name.mp h with ⟨_, h⟩ | ⟨_, h⟩ <;> cases (hhole.symm.trans h)
      · simp [Tree.isBare, hhole]
    | some hole =>
      obtain ⟨family, index⟩ := hole
      have hwrites : (Tree.ident text id).Writes family := ⟨index, hhole⟩
      cases family with
      | generic =>
        refine ⟨fun h => ?_, fun _ => ⟨.nameHole index, rfl, Tree.everywhere_iff.mpr ⟨rfl, nofun⟩⟩⟩
        rcases fails_name.mp h with h | h <;> cases hwrites.unique h
      | statement =>
        exact ⟨fun _ => ⟨_, rfl, rfl⟩, fun h => absurd (fails_name.mpr (.inl hwrites)) h⟩
      | expression =>
        exact ⟨fun _ => ⟨_, rfl, rfl⟩, fun h => absurd (fails_name.mpr (.inr hwrites)) h⟩

theorem outcome_expr {e : Expr} (hsourced : e.Sourced) (h : ∀ p ∈ e.visited, Outcome p.2 (p.2.visit compileHook)) :
    Outcome e (e.visit compileHook) := by
  have hdot : e.dotNamed = true := hsourced.self.dotNamed
  have hvisit : e.visit compileHook = compileHook .expr e fun _ => e.descend compileHook := by
    cases e <;> rfl
  rw [hvisit, compileHook, expressionHole?, statementHole?]
  have hexpression := holeForm_holeWith? .expression "orDeclaration" hdot
  have hstatement := holeForm_holeWith? .statement "multiLine" hdot
  generalize holeWith? .expression "orDeclaration" e = found at hexpression
  generalize holeWith? .statement "multiLine" e = found' at hstatement
  have hclean : ∀ index orDeclaration, (Tree.exprHole index orDeclaration).Clean := fun _ _ =>
    Tree.everywhere_iff.mpr ⟨rfl, nofun⟩
  cases hexpression with
  | bare hwritten =>
    refine ⟨fun hf => ?_, fun _ => ⟨_, rfl, hclean _ _⟩⟩
    cases (fails_identExpr.mp hf).unique ⟨_, hwritten⟩
  | modified hwritten =>
    refine ⟨fun hf => ?_, fun _ => ⟨_, rfl, hclean _ _⟩⟩
    rcases fails_access.mp hf with hf | ⟨-, hne⟩
    · cases hf.unique ⟨_, hwritten⟩
    · exact absurd rfl hne
  | mismodified hwritten hne =>
    exact ⟨fun _ => ⟨_, rfl, rfl⟩, fun hf => absurd (fails_access.mpr (.inr ⟨⟨_, hwritten⟩, hne⟩)) hf⟩
  | none hident haccess =>
    cases hstatement with
    | bare hwritten => exact ⟨fun _ => ⟨_, rfl, rfl⟩, fun hf => absurd (fails_identExpr.mpr ⟨_, hwritten⟩) hf⟩
    | modified hwritten =>
      exact ⟨fun _ => ⟨_, rfl, rfl⟩, fun hf => absurd (fails_access.mpr (.inl ⟨_, hwritten⟩)) hf⟩
    | mismodified hwritten hne =>
      exact ⟨fun _ => ⟨_, rfl, rfl⟩, fun hf => absurd (fails_access.mpr (.inl ⟨_, hwritten⟩)) hf⟩
    | none hident' haccess' =>
      have hmodified : ¬ e.Mismodified := by
        intro hmodified
        unfold Tree.Mismodified at hmodified
        split at hmodified
        next =>
          rcases hmodified with ⟨hwrites, -⟩ | ⟨hwrites, -⟩
          · exact haccess' _ _ rfl hwrites
          · exact haccess _ _ rfl hwrites
        next => exact hmodified
      have halone : ¬ Tree.StandsAlone ⟨_, e⟩ := fun h => nomatch h.category
      have hbare : e.isBare = true := by cases e <;> rfl
      refine outcome_descend h (Tree.fails_iff rfl nofun halone hmodified ?_) fun us hus => ?_
      · rintro n ⟨⟩
        exact hident n rfl
      · exact clean_of_related (c := .expr) rfl nofun nofun nofun hdot hbare hus

/-- A statement list without its comments. -/
theorem clearedBlock_of_forall₂ {ss vs : List Stmt}
    (h : List.Forall₂ (fun s v => isComment v = isComment s ∧ (isComment s = false → v.Clean)) ss vs) :
    ClearedBlock (.blockOf ss) (.blockOf (vs.filter (!isComment ·))) := by
  have hvs : (∀ v ∈ vs.filter (!isComment ·), v.Clean) ∧
      (vs.filter (!isComment ·)).length = (ss.filter (!isComment ·)).length := by
    induction h with
    | nil => exact ⟨nofun, rfl⟩
    | @cons s v ss vs hsv _ ih =>
      obtain ⟨hcomment, hclean⟩ := hsv
      cases hs : isComment s with
      | true => simpa [hcomment, hs] using ih
      | false => simpa [hcomment, hs, hclean hs] using ih
  rw [ClearedBlock, Tree.statements_blockOf, Tree.statements_blockOf]
  exact ⟨Tree.clean_blockOf hvs.1, hvs.2⟩

theorem outcome_block {b : Block} (h : ∀ p ∈ b.visited, Outcome p.2 (p.2.visit compileHook)) :
    Outcome b (b.visit compileHook) := by
  cases b with
  | stmts items =>
    have halone : ¬ Tree.StandsAlone ⟨_, .stmts items⟩ := fun h => nomatch h.category
    obtain ⟨hfail, hsucceed⟩ := descend_cases h (Tree.fails_iff rfl nofun halone id nofun)
    have hvisit : (Tree.stmts items).visit compileHook =
        (do return .blockOf ((← (Tree.stmts items).descend compileHook).statements.filter (!isComment ·))) := rfl
    rw [hvisit]
    constructor
    · intro hf
      obtain ⟨e, he, hmisuse⟩ := hfail hf
      rw [he]
      exact ⟨e, rfl, hmisuse⟩
    · intro hf
      obtain ⟨us, hus, hdescend⟩ := hsucceed hf
      rw [hdescend]
      obtain ⟨items', _, rfl, hitems, hnil⟩ := Tree.exists_of_related_cons hus
      refine ⟨_, rfl, ?_⟩
      have hcleared := clearedBlock_of_forall₂ hitems
      rwa [show Tree.blockOf items.toList = .stmts items from Tree.blockOf_statements (.stmts items)] at hcleared

theorem isComment_of_isProper {s : Stmt} (h : s.isProper = true) : isComment s = false := by
  cases s <;> first | rfl | cases h

/-- A commented body is compiled to the statement alone. -/
theorem length_comments (texts : List String) {s : Stmt} (h : s.isProper = true) :
    ((Tree.blockOf (texts.map .comment ++ [s])).statements.filter (!isComment ·)).length = 1 := by
  have hcomments : (texts.map Tree.comment).filter (!isComment ·) = [] := by
    simp [isComment]
  rw [Tree.statements_blockOf, List.filter_append, hcomments]
  simp [isComment_of_isProper h]

theorem outcome_body {b : Tree .body} (hsourced : b.Sourced) (h : ∀ p ∈ b.visited, Outcome p.2 (p.2.visit compileHook)) :
    Outcome b (b.visit compileHook) := by
  cases b with
  | body s =>
    have halone : ¬ Tree.StandsAlone ⟨_, .body s⟩ := fun h => nomatch h.category
    obtain ⟨hfail, hsucceed⟩ := descend_cases h (Tree.fails_iff rfl nofun halone id nofun)
    have hvisit : (Tree.body s).visit compileHook =
        compileHook .body (.body s) fun _ => (Tree.body s).descend compileHook := rfl
    have hunwrap : ∀ {inner : Block} {v : Stmt}, inner.statements = [v] →
        compileHook .body (.body s) (fun _ => .ok (.body (.sequence inner))) = .ok (.body v) := by
      intro inner v hv
      dsimp only [compileHook, bind, Except.bind]
      rw [hv]
      rfl
    rw [hvisit]
    constructor
    · intro hf
      obtain ⟨e, he, hmisuse⟩ := hfail hf
      rw [he]
      exact ⟨e, rfl, hmisuse⟩
    · intro hf
      obtain ⟨us, hus, hdescend⟩ := hsucceed hf
      rw [hdescend]
      obtain ⟨s', _, rfl, hs, hnil⟩ := Tree.exists_of_related_cons hus
      have hbody : ∀ {s : Stmt}, s.Clean → (Tree.body s).Clean := fun hclean =>
        Tree.everywhere_iff.mpr ⟨rfl, List.forall_mem_singleton.mpr hclean⟩
      rcases hsourced.self with hproper | ⟨texts, s'', rfl, hproper⟩
      · have hclean := hs.proper hproper
        refine ⟨.body s', ?_, hbody hclean⟩
        cases s' <;> first | rfl | cases hclean.self
      · obtain ⟨inner, rfl, hclean, hlength⟩ := hs
        rw [length_comments texts hproper] at hlength
        obtain ⟨v, hv⟩ := List.length_eq_one_iff.mp hlength
        exact ⟨.body v, hunwrap hv, hbody (hclean.statements v (hv ▸ List.mem_cons_self))⟩

theorem misuses_of_mismodified {e : Expr} (h : e.Mismodified) : (Tree.exprStmt e).Misuses :=
  .modified (Tree.mem_reached.mpr (.inr ⟨_, List.mem_cons_self, Tree.self_mem_reached _⟩)) h

theorem not_standsAlone {e : Expr} (hident : ∀ n, e = .identExpr n → ¬ n.Writes .statement)
    (haccess : ∀ n property, e = .access false false (.identExpr n) property → ¬ n.Writes .statement) :
    ¬ Tree.StandsAlone ⟨_, .exprStmt e⟩ := by
  intro halone
  cases halone with
  | bare hn => exact hident _ rfl hn
  | multiLine hn => exact haccess _ _ rfl hn

theorem outcome_exprStmt {e : Expr} (hdot : e.dotNamed = true)
    (h : ∀ p ∈ (Tree.exprStmt e).visited, Outcome p.2 (p.2.visit compileHook)) :
    Outcome (.exprStmt e) ((Tree.exprStmt e).visit compileHook) := by
  have hvisit : (Tree.exprStmt e).visit compileHook =
      compileHook .stmt (.exprStmt e) fun _ => (Tree.exprStmt e).descend compileHook := rfl
  rw [hvisit, compileHook, statementHole?]
  have hclean : ∀ index multiLine, (Tree.stmtHole index multiLine).Clean := fun _ _ =>
    Tree.everywhere_iff.mpr ⟨rfl, nofun⟩
  have hfails : ∀ {e : Expr}, Tree.StandsAlone ⟨_, .exprStmt e⟩ → ¬ (Tree.exprStmt e).Fails := by
    rintro e halone (hf | ⟨n, hn, -⟩)
    · exact Tree.not_misuses_of_standsAlone halone hf
    · cases hn
  have hform := holeForm_holeWith? .statement "multiLine" hdot
  generalize holeWith? .statement "multiLine" e = found at hform
  cases hform with
  | bare hwritten => exact ⟨fun hf => absurd hf (hfails (.bare ⟨_, hwritten⟩)), fun _ => ⟨_, rfl, hclean _ _⟩⟩
  | modified hwritten =>
    exact ⟨fun hf => absurd hf (hfails (.multiLine ⟨_, hwritten⟩)), fun _ => ⟨_, rfl, hclean _ _⟩⟩
  | mismodified hwritten hne =>
    refine ⟨fun _ => ⟨_, rfl, rfl⟩, fun hf => absurd (.inl (misuses_of_mismodified ?_)) hf⟩
    exact .inl ⟨⟨_, hwritten⟩, by simpa using hne⟩
  | none hident haccess =>
    have halone := not_standsAlone hident haccess
    exact outcome_descend h (Tree.fails_iff rfl nofun halone id nofun) fun us hus =>
      clean_of_related (c := .stmt) rfl nofun nofun nofun rfl rfl hus

theorem outcome_stmt {s : Stmt} (hsourced : s.Sourced) (h : ∀ p ∈ s.visited, Outcome p.2 (p.2.visit compileHook)) :
    Outcome s (s.visit compileHook) := by
  cases s with
  | exprStmt e => exact outcome_exprStmt (hsourced.part List.mem_cons_self).self.dotNamed h
  | comment text =>
    exact outcome_descend h (Tree.fails_iff rfl nofun nofun id nofun) fun us hus => by cases hus; rfl
  | sequence b =>
    refine outcome_descend h (Tree.fails_iff rfl nofun nofun id nofun) fun us hus => ?_
    obtain ⟨b', _, rfl, hb, hnil⟩ := Tree.exists_of_related_cons hus
    exact ⟨b', rfl, hb⟩
  | _ =>
    exact outcome_descend h (Tree.fails_iff rfl nofun nofun id nofun) fun us hus =>
      clean_of_related (c := .stmt) rfl nofun nofun nofun rfl rfl hus

theorem outcome_stmts {l : Tree (.list .stmt)} (hsourced : l.Sourced) (h : ∀ p ∈ l.visited, Outcome p.2 (p.2.visit compileHook)) :
    Outcome l (l.visit compileHook) := by
  have halone : ¬ Tree.StandsAlone ⟨_, l⟩ := fun h => nomatch h.category
  cases l with
  | nil => exact outcome_descend h (Tree.fails_iff rfl nofun halone id nofun) fun us hus => by cases hus; exact .nil
  | cons head tail =>
    refine outcome_descend h (Tree.fails_iff rfl nofun halone id nofun) fun us hus => ?_
    obtain ⟨head', us', rfl, hhead, hrest⟩ := Tree.exists_of_related_cons hus
    obtain ⟨tail', _, rfl, htail, hnil⟩ := Tree.exists_of_related_cons hrest
    refine .cons ?_ htail
    rcases hsourced.self with hproper | ⟨text, rfl⟩
    · have hclean := hhead.proper hproper
      refine ⟨?_, fun _ => hclean⟩
      rw [isComment_of_isProper hproper]
      cases head' <;> first | rfl | cases hclean.self
    · cases hhead
      exact ⟨rfl, nofun⟩

/-- Phrases at which compiling does nothing but go on to the parts. -/
theorem outcome_other (hc : c.isUsual = true) (hname : c ≠ .name) (hexpr : c ≠ .expr) (hstmt : c ≠ .stmt)
    (hblock : c ≠ .block) (hbody : c ≠ .body) (hlist : c ≠ .list .stmt) (hsourced : t.Sourced)
    (h : ∀ p ∈ t.visited, Outcome p.2 (p.2.visit compileHook)) : Outcome t (t.visit compileHook) := by
  have hvisit : t.visit compileHook = t.descend compileHook := by
    cases c with
    | name => exact absurd rfl hname
    | expr => exact absurd rfl hexpr
    | stmt => exact absurd rfl hstmt
    | block => exact absurd rfl hblock
    | body => exact absurd rfl hbody
    | _ => rfl
  have halone : ¬ Tree.StandsAlone ⟨c, t⟩ := fun h => hstmt h.category
  have hmodified : ¬ t.Mismodified := by
    cases t
    case access => exact absurd rfl hexpr
    all_goals exact id
  have hident : ∀ n, (⟨c, t⟩ : Phrase) = ⟨_, .identExpr n⟩ → ¬ n.Writes .expression := fun n hn =>
    absurd (congrArg Sigma.fst hn) hexpr
  have hbare : t.isBare = true := by
    cases t
    case ident => exact absurd rfl hname
    case comment => exact absurd rfl hstmt
    case sequence => exact absurd rfl hstmt
    all_goals rfl
  rw [hvisit]
  refine outcome_descend h (Tree.fails_iff hc hname halone hmodified hident) fun us hus => ?_
  exact cleared_of_clean (clean_of_related hc hlist hblock hbody hsourced.self.dotNamed hbare hus) hstmt hblock hlist

/-- Compiling a phrase fails if a hole is misused, and otherwise gives a clean phrase. -/
theorem outcome_visit (hc : c.isUsual = true) (hsourced : t.Sourced) : Outcome t (t.visit compileHook) := by
  induction t using Tree.induction_on_parts with
  | step c t ih =>
    have hparts : ∀ p ∈ t.visited, Outcome p.2 (p.2.visit compileHook) := fun p hp =>
      ih p (Tree.mem_parts_of_visited hp) (Tree.isUsual_visited hc p hp) (hsourced.part (Tree.mem_parts_of_visited hp))
    by_cases hlist : c = .list .stmt
    · subst hlist
      exact outcome_stmts hsourced hparts
    · cases c with
      | name => exact outcome_name t
      | expr => exact outcome_expr hsourced hparts
      | block => exact outcome_block hparts
      | body => exact outcome_body hsourced hparts
      | stmt => exact outcome_stmt hsourced hparts
      | _ => exact outcome_other hc nofun nofun nofun nofun nofun hlist hsourced hparts

end

/-! ## Texts -/

/-- Nothing is left in a pattern of how it was written, and it is a sequence only if there are several
statements. -/
def Clean : Pattern → Prop
  | .expr e => e.Clean
  | .stmt (.sequence b) => b.Clean ∧ 2 ≤ b.statements.length
  | .stmt s => s.Clean

theorem not_misuses_comment (text : String) : ¬ (Tree.comment text).Misuses := by
  have halone : ¬ Tree.StandsAlone ⟨_, .comment text⟩ := nofun
  rw [Tree.misuses_iff halone]
  rintro ((⟨n, hn, -⟩ | ⟨n, hn, -⟩ | h) | ⟨p, hp, -⟩)
  · cases hn
  · cases hn
  · exact h
  · cases hp

theorem fails_iff_misuses {c : Category} {t : Tree c} (hname : c ≠ .name) (hoption : c ≠ .option .name) :
    t.Fails ↔ t.Misuses := by
  rw [Tree.Fails, Tree.bareName?_eq_none hname hoption]
  simp

theorem misuses_ofList {ss : List Stmt} : (Tree.ofList ss).Misuses ↔ ∃ s ∈ ss, s.Misuses := by
  have halone : ∀ l : Tree (.list .stmt), ¬ Tree.StandsAlone ⟨_, l⟩ := fun _ h => nomatch h.category
  induction ss with
  | nil =>
    rw [← fails_iff_misuses (c := .list .stmt) nofun nofun, Tree.fails_iff (c := .list .stmt) rfl nofun (halone _) id nofun]
    exact ⟨nofun, nofun⟩
  | cons s ss ih =>
    have hparts : (Tree.ofList (s :: ss)).visited = [⟨_, s⟩, ⟨_, .ofList ss⟩] := rfl
    rw [← fails_iff_misuses (c := .list .stmt) nofun nofun, Tree.fails_iff (c := .list .stmt) rfl nofun (halone _) id nofun, hparts]
    simp only [List.mem_cons, exists_eq_or_imp, List.not_mem_nil, or_false, exists_eq_left]
    rw [fails_iff_misuses (c := .stmt) nofun nofun, fails_iff_misuses (c := .list .stmt) nofun nofun]
    exact or_congr_right ih

/-- A block misuses a hole if one of its statements does. -/
theorem misuses_blockOf {ss : List Stmt} : (Tree.blockOf ss).Misuses ↔ ∃ s ∈ ss, s.Misuses := by
  have halone : ¬ Tree.StandsAlone ⟨_, .blockOf ss⟩ := fun h => nomatch h.category
  have hparts : (Tree.blockOf ss).visited = [⟨_, .ofList ss⟩] := rfl
  rw [← fails_iff_misuses (c := .block) nofun nofun, Tree.fails_iff (c := .block) rfl nofun halone id nofun,
    hparts, ← misuses_ofList, ← fails_iff_misuses (c := .list .stmt) nofun nofun]
  simp

/-- Comments do not count. -/
theorem misuses_filter {ss : List Stmt} :
    (Tree.blockOf (ss.filter (!isComment ·))).Misuses ↔ (Tree.blockOf ss).Misuses := by
  rw [misuses_blockOf, misuses_blockOf]
  constructor
  · rintro ⟨s, hs, hmisuse⟩
    exact ⟨s, (List.mem_filter.mp hs).1, hmisuse⟩
  · rintro ⟨s, hs, hmisuse⟩
    refine ⟨s, List.mem_filter.mpr ⟨hs, ?_⟩, hmisuse⟩
    cases s with
    | comment text => exact absurd hmisuse (not_misuses_comment text)
    | _ => rfl

/-- Several statements make a sequence. -/
theorem compileStatements_eq {ss : List Stmt} {b : Block} (h : (Tree.blockOf ss).visit compileHook = .ok b)
    (hclean : b.Clean) (hne : b.statements ≠ []) : ∃ q, compileStatements ss = .ok q ∧ q.Clean := by
  cases b with
  | stmts items =>
    have hmembers : ∀ s ∈ items.toList, s.Clean := hclean.statements
    rw [compileStatements, h]
    cases hitems : items.toList with
    | nil => exact absurd hitems hne
    | cons s rest =>
      cases rest with
      | nil =>
        have hs : s.Clean := hmembers s (hitems ▸ List.mem_cons_self)
        refine ⟨.stmt s, by simp only [bind, Except.bind, hitems]; rfl, ?_⟩
        cases s <;> first | exact hs | cases hs.self
      | cons s' rest =>
        refine ⟨.stmt (.sequence (.stmts items)), by simp only [bind, Except.bind, hitems]; rfl, hclean, ?_⟩
        rw [Tree.statements, hitems]
        simp

/-- The outcome of compiling a block is a clean pattern, or an error if the block misuses a hole. -/
structure Exact (b : Block) (r : Except CompileError Pattern) : Prop where
  clean : ∀ q, r = .ok q → q.Clean
  misuse : (∃ e, r = .error e ∧ e.isMisuse = true) ↔ b.Misuses

theorem Exact.error {b : Block} (h : b.Misuses) {e : CompileError} (he : e.isMisuse = true) : Exact b (.error e) :=
  ⟨nofun, fun _ => h, fun _ => ⟨e, rfl, he⟩⟩

theorem Exact.ok {b : Block} (h : ¬ b.Misuses) {q : Pattern} (hq : q.Clean) : Exact b (.ok q) := by
  refine ⟨?_, nofun, fun hmisuse => absurd hmisuse h⟩
  rintro _ ⟨⟩
  exact hq

theorem compileStatements_exact {ss : List Stmt} (hne : ss ≠ []) (hss : ∀ s ∈ ss, isComment s = false)
    (hsourced : (Tree.blockOf ss).Sourced) : Exact (.blockOf ss) (compileStatements ss) := by
  have houtcome := outcome_visit rfl hsourced
  by_cases hmisuse : (Tree.blockOf ss).Misuses
  · obtain ⟨e, he, hemisuse⟩ := houtcome.fails (.inl hmisuse)
    have herror : compileStatements ss = .error e := by
      rw [compileStatements, he]
      rfl
    rw [herror]
    exact .error hmisuse hemisuse
  · have hfails : ¬ (Tree.blockOf ss).Fails := mt (fails_iff_misuses (c := .block) nofun nofun).mp hmisuse
    obtain ⟨b, hb, hclean, hlength⟩ := houtcome.succeeds hfails
    have hstatements : b.statements ≠ [] := by
      intro hnil
      rw [hnil, Tree.statements_blockOf, List.filter_eq_self.mpr fun s hs => by rw [hss s hs]; rfl] at hlength
      exact hne (List.eq_nil_of_length_eq_zero hlength.symm)
    obtain ⟨q, hq, hclean⟩ := compileStatements_eq hb hclean hstatements
    rw [hq]
    exact .ok hmisuse hclean

theorem sourced_blockOf {ss : List Stmt} :
    (Tree.blockOf ss).Sourced ↔
      ∀ s ∈ ss, s.Sourced ∧ (s.isProper = true ∨ ∃ text, s = .comment text) := by
  have hlist : (Tree.ofList ss).Sourced ↔
      ∀ s ∈ ss, s.Sourced ∧ (s.isProper = true ∨ ∃ text, s = .comment text) := by
    induction ss with
    | nil => exact ⟨fun _ => nofun, fun _ => Tree.everywhere_iff.mpr ⟨rfl, nofun⟩⟩
    | cons s ss ih =>
      have hparts : (Tree.ofList (s :: ss)).parts = [⟨_, s⟩, ⟨_, .ofList ss⟩] := rfl
      have hform : (Tree.ofList (s :: ss)).Formed ↔ s.isProper = true ∨ ∃ text, s = .comment text := .rfl
      rw [Tree.Sourced, Tree.everywhere_iff, hparts, List.forall_mem_cons, List.forall_mem_singleton, hform,
        List.forall_mem_cons, ← ih]
      exact ⟨fun ⟨hs, hsourced, hss⟩ => ⟨⟨hsourced, hs⟩, hss⟩, fun ⟨⟨hsourced, hs⟩, hss⟩ => ⟨hs, hsourced, hss⟩⟩
  rw [← hlist, Tree.Sourced, Tree.everywhere_iff]
  exact ⟨fun h => h.2 _ List.mem_cons_self, fun h => ⟨rfl, List.forall_mem_singleton.mpr h⟩⟩

theorem misuses_exprStmt {e : Expr} (h : ¬ Tree.StandsAlone ⟨_, .exprStmt e⟩) :
    (Tree.blockOf [.exprStmt e]).Misuses ↔ e.Misuses := by
  rw [misuses_blockOf]
  simp only [List.mem_singleton, exists_eq_left]
  rw [← fails_iff_misuses (c := .stmt) nofun nofun, Tree.fails_iff (c := .stmt) rfl nofun h id nofun,
    ← fails_iff_misuses (c := .expr) nofun nofun]
  exact ⟨fun ⟨p, hp, h⟩ => by rwa [List.mem_singleton.mp hp] at h, fun h => ⟨_, List.mem_cons_self, h⟩⟩

/-- A lone expression is compiled by itself. -/
theorem compileLone_exact {e : Expr} (hsourced : e.Sourced)
    (hstatements : Exact (.blockOf [.exprStmt e]) (compileStatements [.exprStmt e])) :
    Exact (.blockOf [.exprStmt e]) (do
      match ← statementHole? e with
      | none => return .expr (← e.visit compileHook)
      | some _ => compileStatements [.exprStmt e]) := by
  have hform := holeForm_holeWith? .statement "multiLine" hsourced.self.dotNamed
  rw [statementHole?]
  generalize holeWith? .statement "multiLine" e = found at hform
  cases hform with
  | bare => exact hstatements
  | modified => exact hstatements
  | mismodified hwritten hne =>
    refine .error (misuses_blockOf.mpr ⟨_, List.mem_cons_self, misuses_of_mismodified ?_⟩) rfl
    exact .inl ⟨⟨_, hwritten⟩, by simpa using hne⟩
  | none hident haccess =>
    have halone := not_standsAlone hident haccess
    have houtcome := outcome_visit rfl hsourced
    have hmisuses := misuses_exprStmt halone
    by_cases hmisuse : e.Misuses
    · obtain ⟨e', he, hemisuse⟩ := houtcome.fails (.inl hmisuse)
      rw [he]
      exact .error (hmisuses.mpr hmisuse) hemisuse
    · obtain ⟨e', he, hclean⟩ := houtcome.succeeds (mt (fails_iff_misuses (c := .expr) nofun nofun).mp hmisuse)
      rw [he]
      exact .ok (mt hmisuses.mp hmisuse) hclean

theorem ofProgram_exact {p : Program} (terminated : Bool) (hsourced : p.body.Sourced)
    (hstatement : ∃ s ∈ p.body.statements, isComment s = false) : Exact p.body (ofProgram p terminated) := by
  have hne : p.body.statements.filter (!isComment ·) ≠ [] := by
    obtain ⟨s, hs, hcomment⟩ := hstatement
    intro hnil
    have hmem : s ∈ p.body.statements.filter (!isComment ·) := List.mem_filter.mpr ⟨hs, by rw [hcomment]; rfl⟩
    rw [hnil] at hmem
    cases hmem
  have hproper : ∀ s ∈ p.body.statements.filter (!isComment ·), isComment s = false := fun s hs => by
    simpa using (List.mem_filter.mp hs).2
  have hsourced' : (Tree.blockOf (p.body.statements.filter (!isComment ·))).Sourced := by
    rw [← Tree.blockOf_statements p.body] at hsourced
    exact sourced_blockOf.mpr fun s hs => sourced_blockOf.mp hsourced s (List.mem_filter.mp hs).1
  have hmisuses := @misuses_filter p.body.statements
  rw [Tree.blockOf_statements] at hmisuses
  suffices h : Exact (.blockOf (p.body.statements.filter (!isComment ·))) (ofProgram p terminated) from
    ⟨h.clean, h.misuse.trans hmisuses⟩
  unfold ofProgram
  generalize p.body.statements.filter (!isComment ·) = ss at *
  have hstatements := compileStatements_exact hne hproper hsourced'
  dsimp only
  split
  next e =>
    have he : e.Sourced := (sourced_blockOf.mp hsourced' _ List.mem_cons_self).1.part List.mem_cons_self
    exact compileLone_exact he hstatements
  next => exact hstatements

/-- A text with at least one statement is a pattern unless it misuses a hole, and what it is compiled
to is clean. -/
theorem compile_exact {text : String} {p : Program} (hread : Program.read text = .ok p)
    (hstatement : ∃ s ∈ p.body.statements, isComment s = false) :
    (∀ q, compile text = .ok q → q.Clean) ∧
      ((∃ e, compile text = .error e ∧ e.isMisuse = true) ↔ p.body.Misuses) := by
  unfold compile
  rw [hread]
  have hexact := ofProgram_exact (endsInSemicolon text) (Program.sourced_read hread) hstatement
  exact ⟨hexact.clean, hexact.misuse⟩

/-- A loop with a comment between its head and its body. -/
theorem compile_exact_commentedBody :
    ∃ p q, Program.read "while (expression1) // loop\n  statement1;" = .ok p ∧
      compile "while (expression1) // loop\n  statement1;" = .ok q ∧ q.Clean ∧ ¬ p.body.Misuses := by
  have hread : ((Program.read "while (expression1) // loop\n  statement1;").toOption.map fun p =>
      p.body.statements.any (!isComment ·)) = some true := by
    rw [Program.toOption_read, String.toList_ofList]
    decide +kernel
  have hcompile : (compile "while (expression1) // loop\n  statement1;").toOption.isSome = true := by
    decide +kernel
  cases hp : Program.read "while (expression1) // loop\n  statement1;" with
  | error e =>
    rw [hp] at hread
    cases hread
  | ok p =>
    cases hq : compile "while (expression1) // loop\n  statement1;" with
    | error e =>
      rw [hq] at hcompile
      cases hcompile
    | ok q =>
      rw [hp] at hread
      obtain ⟨hclean, hmisuse⟩ := compile_exact hp (by simpa [Except.toOption] using hread)
      refine ⟨p, q, rfl, rfl, hclean q hq, fun h => ?_⟩
      obtain ⟨e, he, -⟩ := hmisuse.mpr h
      cases hq.symm.trans he

end Pattern

end Unminify
