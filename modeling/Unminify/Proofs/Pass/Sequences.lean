import Unminify.Proofs.Pass.Completeness
import Unminify.Proofs.Pass.Watch

/-!
# Sequences that are left

A sequence stands for several statements until they are spliced into the list around it. Sequences come
from the reader, from the splitting of comma expressions, from templates, and from what holes stand
for; they go away when a list is spliced or a body coerced. However they come together, a pass that does
not stop leaves none anywhere in the program (`spliced_pass`).

The exception is what no walk reaches: the property of a dot access. It is the string of a name in all
that is read, but a tree may have any expression there. So neither the program nor a template may have
a sequence in such a place (`InReach`); otherwise it stays where it is (`not_spliced_hidden`).

* `Pattern.inReach_of_visit` — filling a template hides no sequence;
* `Pass.cleared_walk` — after a walk no list and no body holds a sequence;
* `Tree.Cleared.spliced` — then there is none at all, since statements stand nowhere else.
-/

namespace Unminify

namespace Tree

/-- Whether a phrase is a sequence. -/
def isSequence : {c : Category} → Tree c → Bool
  | _, .sequence _ => true
  | _, _ => false

/-- Whether a sequence stands directly in a statement list, or as a body. -/
def holdsSequence : {c : Category} → Tree c → Bool
  | _, .stmts items => items.toList.any isSequence
  | _, .body s => s.isSequence
  | _, _ => false

/-- There is no sequence anywhere in a tree. -/
def Spliced {c : Category} (t : Tree c) : Prop := t.Everywhere fun q => q.2.isSequence = false

/-- No statement list and no body in a tree holds a sequence. -/
def Cleared {c : Category} (t : Tree c) : Prop := t.Everywhere fun q => q.2.holdsSequence = false

/-- Walks come to every sequence of a tree: there is none in the property of a dot access. -/
def InReach {c : Category} (t : Tree c) : Prop :=
  t.Everywhere fun q => ∀ u ∈ q.2.unvisited, u.2.Spliced

instance {φ : Phrase → Prop} [DecidablePred φ] {c : Category} (t : Tree c) :
    Decidable (t.Everywhere φ) :=
  inferInstanceAs (Decidable (∀ q ∈ t.phrases, φ q))

instance {c : Category} (t : Tree c) : Decidable t.Spliced :=
  inferInstanceAs (Decidable (t.Everywhere fun q => q.2.isSequence = false))

instance {c : Category} (t : Tree c) : Decidable t.InReach :=
  inferInstanceAs (Decidable (t.Everywhere fun q => ∀ u ∈ q.2.unvisited, u.2.Spliced))

/-! ## Where sequences stand -/

theorem isSequence_of_ne {c : Category} (t : Tree c) (hc : c ≠ .stmt) : t.isSequence = false := by
  cases t with
  | sequence inner => exact absurd rfl hc
  | _ => rfl

theorem holdsSequence_of_ne {c : Category} (t : Tree c) (hblock : c ≠ .block) (hbody : c ≠ .body) :
    t.holdsSequence = false := by
  cases t with
  | stmts items => exact absurd rfl hblock
  | body s => exact absurd rfl hbody
  | _ => rfl

theorem holdsSequence_blockOf {ss : List Stmt} :
    (blockOf ss).holdsSequence = false ↔ ∀ s ∈ ss, s.isSequence = false := by
  show (ofList ss).toList.any isSequence = false ↔ _
  rw [toList_ofList, List.any_eq_false]
  simp only [Bool.not_eq_true]

/-- A tree without sequences has none in its lists and bodies. -/
theorem Spliced.cleared {c : Category} {t : Tree c} (h : t.Spliced) : t.Cleared := by
  induction t using induction_on_parts with
  | step c t ih =>
    refine everywhere_iff.mpr ⟨?_, fun p hp => ih p hp (h.part hp)⟩
    cases t with
    | stmts items =>
      rw [← blockOf_statements (stmts items), holdsSequence_blockOf]
      exact fun s hs => (h.reached (mem_reached_of_statements hs)).self
    | body s => exact (h.part (p := ⟨_, s⟩) List.mem_cons_self).self
    | _ => rfl

/-- The statements around which a phrase has nothing but lists are no sequences. -/
def Bare : (c : Category) → Tree c → Prop
  | .stmt, s => s.isSequence = false
  | .list c, t => ∀ u ∈ t.toList, Bare c u
  | .option c, t => ∀ u ∈ t.toOption, Bare c u
  | _, _ => True

theorem bare_of_tame {c : Category} (h : Builtin.tame c = true) (t : Tree c) : Bare c t := by
  induction c with
  | stmt => cases h
  | list c ih => exact fun u _ => ih h u
  | option c ih => exact fun u _ => ih h u
  | _ => trivial

/-- Statements stand in lists and bodies, so if these hold no sequence, neither does any other part of a
phrase. -/
theorem bare_part {c : Category} {t : Tree c} (hbare : Bare c t) (ht : t.holdsSequence = false)
    {p : Phrase} (hp : p ∈ t.parts) : Bare p.1 p.2 := by
  have htame : t.parts.all (Builtin.tame ·.1) = true → Bare p.1 p.2 := fun h =>
    bare_of_tame (List.all_eq_true.mp h p hp) p.2
  cases t with
  | cons u us =>
    obtain ⟨hu, hus⟩ := List.forall_mem_cons.mp (show ∀ v ∈ u :: us.toList, Bare _ v from hbare)
    rcases List.mem_cons.mp hp with rfl | hp
    · exact hu
    · rw [List.mem_singleton.mp hp]
      exact hus
  | some u =>
    rw [List.mem_singleton.mp hp]
    exact hbare u rfl
  | stmts items =>
    rw [List.mem_singleton.mp hp]
    exact fun s hs => Bool.eq_false_iff.mpr (List.any_eq_false.mp ht s hs)
  | body s =>
    rw [List.mem_singleton.mp hp]
    exact ht
  | _ => exact htame rfl

/-- Where lists and bodies hold no sequence there is none, unless at the top. -/
theorem Cleared.spliced {c : Category} {t : Tree c} (h : t.Cleared) (hbare : Bare c t) : t.Spliced := by
  induction t using induction_on_parts with
  | step c t ih =>
    refine everywhere_iff.mpr ⟨?_, fun p hp => ih p hp (h.part hp) (bare_part hbare h.self hp)⟩
    cases t with
    | sequence inner => exact hbare
    | _ => rfl

/-- Splicing leaves no sequence in a list. -/
theorem isSequence_splice (ss : List Stmt) : ∀ s ∈ splice ss, s.isSequence = false := by
  induction ss using splice.induct with
  | case1 =>
    rw [splice]
    intro s hs
    cases hs
  | case2 inner rest ih =>
    rw [splice]
    exact ih
  | case3 s rest hne ih =>
    rw [splice]
    · refine List.forall_mem_cons.mpr ⟨?_, ih⟩
      cases s with
      | sequence inner => exact absurd rfl (hne inner)
      | _ => rfl
    · exact hne

/-! ## What walks do not reach -/

theorem inReach_form {c : Category} {t : Tree c} (h : t.unvisited = [])
    (hparts : Each (fun _ t => t.InReach) t.parts) : t.InReach := by
  refine everywhere_iff.mpr ⟨?_, hparts.of_mem⟩
  rw [h]
  exact nofun

/-- Dot accesses that are named hide nothing. -/
theorem inReach_of_dotNamed {c : Category} {t : Tree c}
    (h : t.Everywhere fun q => q.2.dotNamed = true) : t.InReach := by
  intro q hq u hu
  obtain ⟨text, rfl⟩ := exists_string_of_unvisited (h q hq) hu
  exact everywhere_iff.mpr ⟨rfl, nofun⟩

theorem InReach.unvisited {c : Category} {t : Tree c} (h : t.InReach) {p : Phrase}
    (hp : p ∈ t.unvisited) : p.2.Spliced :=
  h.self p hp

theorem inReach_rebuild {c : Category} {t : Tree c} {us : List Phrase}
    (halign : us.map Sigma.fst = t.visited.map Sigma.fst) (ht : t.InReach)
    (hus : ∀ u ∈ us, u.2.InReach) : (t.rebuild us).InReach := by
  refine everywhere_rebuild halign ht (fun u hu => ?_) hus
  rw [unvisited_rebuild] at hu
  exact ht.unvisited hu

theorem inReach_ofList {c : Category} {ts : List (Tree c)} :
    (ofList ts).InReach ↔ ∀ t ∈ ts, t.InReach :=
  everywhere_ofList_iff fun t => by cases t <;> exact nofun

theorem inReach_blockOf {ss : List Stmt} (h : ∀ s ∈ ss, s.InReach) : (blockOf ss).InReach :=
  inReach_form rfl (each_cons (inReach_ofList.mpr h) each_nil)

/-- A comma expression that is split hides nothing that it did not hide before. -/
theorem InReach.split {parts : Tree (.list .expr)} (h : (exprStmt (.comma parts)).InReach) :
    (sequence (blockOf (parts.toList.map exprStmt))).InReach := by
  have hcomma : (comma parts).InReach := h.part List.mem_cons_self
  have hparts : parts.InReach := hcomma.part List.mem_cons_self
  have hitems : ∀ s ∈ parts.toList.map exprStmt, s.InReach := List.forall_mem_map.mpr fun e he =>
    inReach_form rfl (each_cons (hparts.reached (mem_reached_of_toList he)) each_nil)
  exact inReach_form rfl (each_cons (inReach_blockOf hitems) each_nil)

theorem InReach.statements {b : Block} (h : b.InReach) : ∀ s ∈ b.statements, s.InReach :=
  fun _ hs => h.reached (mem_reached_of_statements hs)

end Tree

namespace Pattern

variable {options : MatchOptions} {env : Environment} {c : Category}

/-! ## Filling hides nothing -/

/-- What a match has bound is a part of what was matched. -/
theorem Matches.everywhere {φ : Phrase → Prop} {p n : Tree c} (h : Matches options p n {} env)
    (hn : n.Everywhere φ) {k : Hole} {v : Bound} (hk : env.get? k = some v) :
    v.phrase.2.Everywhere φ := by
  rcases h.origin hk with hempty | ⟨d, q, u, -, hu, hb⟩
  · cases hempty
  · have hinside : u.Everywhere φ := fun r hr => hn r (Tree.mem_phrases_trans hu hr)
    cases hb with
    | decl => exact hinside.part List.mem_cons_self
    | _ => exact hinside

theorem get?_of_visit_hole {fuel : Nat} {t u : Tree c} {k : Hole} (hk : t.hole? = some k)
    (h : t.visit (fillHook env fuel) = .ok u) : ∃ v, env.get? k = some v := by
  cases hget : env.get? k with
  | some v => exact ⟨v, rfl⟩
  | none =>
    cases t with
    | stmtHole _ _ | exprHole _ _ | nameHole _ =>
      cases hk
      unfold Tree.visit fillHook at h
      simp only [hget] at h
      cases h
    | _ => cases hk

section

variable (henv : ∀ k v, env.get? k = some v → v.phrase.2.InReach)

include henv

theorem inReach_of_adopted? {inner bound : Block} (h : adopted? env inner = some bound) : bound.InReach := by
  obtain ⟨i, multiLine, s, -, hget, hs⟩ := eq_of_adopted? h
  have hvalue : s.InReach := henv _ _ hget
  rcases hs with rfl | rfl | ⟨-, rfl⟩
  · exact hvalue.part (p := ⟨_, bound⟩) List.mem_cons_self
  · exact hvalue.part (p := ⟨_, bound⟩) List.mem_cons_self
  · exact Tree.inReach_form rfl (Tree.each_cons (Tree.inReach_form rfl Tree.each_nil) Tree.each_nil)

/-- A template is filled to a tree that hides no sequence, if its loop heads are. -/
theorem inReach_of_heads {fuel : Nat}
    (hhead : ∀ i b d u, env.get? ⟨.expression, i⟩ = some (.decl d) →
      (Tree.exprHead (.exprHole i b)).visit (fillHook env fuel) = .ok u → u.InReach)
    {t u : Tree c} (ht : t.InReach) (h : t.visit (fillHook env fuel) = .ok u) : u.InReach := by
  induction t using Tree.induction_on_parts with
  | step c t ih =>
    cases hhole : t.hole? with
    | some k =>
      obtain ⟨v, hv⟩ := get?_of_visit_hole hhole h
      have hvalue := henv k v hv
      rw [phrase_of_visit_hole hhole h hv] at hvalue
      exact hvalue
    | none =>
      rcases visit_cases env fuel hhole with
        hwalk | ⟨inner, bound, hblock, hadopted⟩ | ⟨i, b, d, hform, hd⟩
      · rw [hwalk, Tree.descend_eq] at h
        obtain ⟨us, hus, rfl⟩ := walkAll_eq_ok h
        refine Tree.inReach_rebuild hus.aligned.symm ht fun v hv => ?_
        obtain ⟨q, hq, hfill⟩ := hus.exists_of_mem hv
        have hpart := Tree.mem_parts_of_visited hq
        exact ih _ hpart (ht.part hpart) hfill
      · cases hblock
        rw [Tree.visit, fillHook_block, hadopted] at h
        cases h
        exact Tree.inReach_form rfl (Tree.each_cons (inReach_of_adopted? henv hadopted) Tree.each_nil)
      · cases hform
        exact hhead i b d u hd h

/-- Filling hides no sequence, if neither the template nor the values of its holes do. -/
theorem inReach_of_visit {fuel : Nat} {t u : Tree c} (ht : t.InReach)
    (h : t.visit (fillHook env fuel) = .ok u) : u.InReach := by
  have hdecl : ∀ {d : VarDecl}, d.InReach → (Tree.declHead d).InReach := fun hd =>
    Tree.inReach_form rfl (Tree.each_cons hd Tree.each_nil)
  -- a declaration that is put into a loop head is filled in turn
  induction fuel generalizing c with
  | zero =>
    refine inReach_of_heads henv (fun i b d u hd hu => ?_) ht h
    rw [Tree.visit, fillHook_head, hd] at hu
    cases hu
    exact hdecl (henv _ _ hd)
  | succ fuel ih =>
    refine inReach_of_heads henv (fun i b d u hd hu => ?_) ht h
    rw [Tree.visit, fillHook_head, hd] at hu
    obtain ⟨d', hd', hu⟩ := exists_of_bind_eq_ok hu
    cases hu
    exact hdecl (ih (henv _ _ hd) hd')

end

/-- What a rule puts in hides no sequence, if neither its template nor what it matched does. -/
theorem Matches.inReach {p n : Tree c} (h : Matches options p n {} env) (hn : n.InReach)
    {d : Category} {t u : Tree d} (ht : t.InReach) (hfill : fillTree env t = .ok u) : u.InReach :=
  inReach_of_visit (fun _ _ hv => h.everywhere hn hv) ht hfill

end Pattern

namespace Rule

variable {r : Rule} {options : MatchOptions}

theorem inReach_of_applyToExpr? (hr : r.replacement.phrase.2.InReach) {e e' : Expr} (he : e.InReach)
    (h : r.applyToExpr? options e = some (.ok e')) : e'.InReach := by
  obtain ⟨p, t, env, -, ht, hmatch, hfill⟩ := applyToExpr?_eq_some h
  rw [ht] at hr
  exact hmatch.inReach he hr hfill

theorem inReach_of_applyToStmt? (hr : r.replacement.phrase.2.InReach) {s s' : Stmt} (hs : s.InReach)
    (h : r.applyToStmt? options s = some (.ok s')) : s'.InReach := by
  obtain ⟨p, t, env, -, -, ht, hmatch, hfill⟩ := applyToStmt?_eq_some h
  rw [ht] at hr
  exact hmatch.inReach hs hr hfill

theorem inReach_of_applyToList? (hr : r.replacement.phrase.2.InReach) {ss : List Stmt} {s : Stmt}
    (hss : ∀ s ∈ ss, s.InReach) (h : r.applyToList? options ss = some (.ok s)) : s.InReach := by
  obtain ⟨inner, t, env, -, ht, hmatch, hfill⟩ := applyToList?_eq_some h
  rw [ht] at hr
  exact hmatch.inReach (Tree.inReach_ofList.mpr hss) hr hfill

end Rule

namespace Pass

open Tree

theorem inReach_of_named {s s' : Stmt} (h : Named s s') (hs : s.InReach) : s'.InReach := by
  cases h with
  | same => exact hs
  | renamed isAsync isGenerator proposed name id id' params inner =>
    -- the other name is the only difference, and nothing can hide in a name
    have hfunction : (function isAsync isGenerator (.some (.ident proposed id)) params inner).InReach :=
      hs.part List.mem_cons_self
    have hname : (Tree.some (.ident name id')).InReach :=
      inReach_form rfl (each_cons (inReach_form rfl each_nil) each_nil)
    have hparams : params.InReach := hfunction.part (List.mem_cons_of_mem _ List.mem_cons_self)
    have hinner : inner.InReach :=
      hfunction.part (List.mem_cons_of_mem _ (List.mem_cons_of_mem _ List.mem_cons_self))
    exact inReach_form rfl (each_cons
      (inReach_form rfl (each_cons hname (each_cons hparams (each_cons hinner each_nil)))) each_nil)

/-! ## Walks that are not stopped -/

/-- Watches for stops. -/
def forStops : Watch where
  Seen := Option PassError
  view s := s.error
  alarm e := e ≠ Option.none
  atStop _ h := h

/-- What a step brings whatever it may stop for, it brings while there is no stop. -/
theorem brings_of_meets {α : Type} {x : Pass α} {Q : α → Prop}
    (h : ∀ ok : Option PassError → Prop, (∀ e, ok (some e)) → Meets ok x Q) : forStops.Brings x Q := by
  intro s
  have hsome : ∀ e, Option.some e = s.error ∨ Option.some e ≠ Option.none :=
    fun e => .inr (Option.some_ne_none e)
  obtain ⟨herror, hQ⟩ := h (fun e => e = s.error ∨ e ≠ Option.none) hsome s (.inl rfl)
  exact herror.imp_left fun herror => ⟨herror, hQ⟩

/-- What a walk does to a phrase: if it hides no sequence, its lists and bodies hold none afterwards. -/
def Clears (c : Category) (t u : Tree c) : Prop := t.InReach → u.Cleared

theorem cleared_form {c : Category} {t : Tree c} (ht : t.holdsSequence = false)
    (h : Each (fun _ t => t.Cleared) t.parts) : t.Cleared :=
  everywhere_iff.mpr ⟨ht, h.of_mem⟩

theorem cleared_rebuild {c : Category} {t : Tree c} {us : List Phrase}
    (h : Related Clears t.visited us) (ht : t.InReach) (hself : (t.rebuild us).holdsSequence = false) :
    (t.rebuild us).Cleared := by
  refine everywhere_iff.mpr ⟨hself, fun p hp => ?_⟩
  rw [parts_eq, visited_rebuild h.aligned.symm, unvisited_rebuild] at hp
  rcases List.mem_append.mp hp with hp | hp
  · obtain ⟨q, hq, hclears⟩ := h.exists_of_mem hp
    exact hclears (ht.part (mem_parts_of_visited hq))
  · exact (ht.unvisited hp).cleared

theorem cleared_blockOf {ss : List Stmt} (hss : ∀ s ∈ ss, s.isSequence = false)
    (h : ∀ s ∈ ss, s.Cleared) : (blockOf ss).Cleared := by
  have hlist : (ofList ss).Cleared :=
    (everywhere_ofList_iff fun t => holdsSequence_of_ne t nofun nofun).mpr h
  exact cleared_form (holdsSequence_blockOf.mpr hss) (each_cons hlist each_nil)

/-- A body that is coerced holds no sequence. -/
theorem brings_coerce_cleared (s u : Stmt) : forStops.Brings (Watch.coerce (.body u)) fun b =>
    Clears .stmt s u → Clears .body (.body s) b := by
  have hbody : ∀ v : Stmt, v.isSequence = false → v.Cleared → (body v).Cleared := fun v hv hcleared =>
    cleared_form hv (each_cons hcleared each_nil)
  cases u with
  | sequence inner =>
    refine brings_of_meets fun ok _ => (meets_count _).bind fun _ _ => meets_pure fun h hs => ?_
    have hinner : inner.Cleared := (h (hs.part List.mem_cons_self)).part List.mem_cons_self
    exact hbody _ rfl (cleared_form rfl (each_cons hinner each_nil))
  | _ => exact Watch.brings_pure fun h hs => hbody _ rfl (h (hs.part List.mem_cons_self))

section

variable {table : RuleTable} (htable : ∀ r ∈ table.rules, r.replacement.phrase.2.InReach)

include htable

theorem brings_sweep_inReach (b : Block) :
    forStops.Brings (sweep table b.statements) fun ss => b.InReach → (ofList ss).InReach := by
  refine brings_of_meets fun ok hok => (meets_sweep ?_).imp fun ss hss hb => ?_
  · exact ⟨fun _ _ _ _ _ _ => hok _, fun _ _ _ _ _ _ _ _ => hok _⟩
  · refine inReach_ofList.mpr fun s hs => ?_
    rcases hss s hs with hs | ⟨rest, m, s', hrest, hm, houtcome, hs⟩
    · exact hb.statements s hs
    · obtain ⟨hr, -, happly⟩ := mem_of_windowAt? hm
      rw [houtcome] at happly
      have hmatched : ∀ t ∈ rest.take m.length, t.InReach := fun t ht =>
        hb.statements t (hrest.mem (List.mem_of_mem_take ht))
      exact everywhere_members (Rule.inReach_of_applyToList? (htable m.rule hr) hmatched happly) s hs

theorem brings_simplifyStmt_inReach (s : Stmt) :
    forStops.Brings (simplifyStmt table s) fun s' => s.InReach → s'.InReach := by
  refine brings_of_meets fun ok hok =>
    (meets_simplifyStmt (fun _ => hok _) fun _ _ _ => hok _).imp fun s' h hs => ?_
  cases h with
  | same => exact hs
  | split parts => exact hs.split
  | applied hfirst hnamed _ =>
    obtain ⟨hr, happly⟩ := mem_of_firstMatch? hfirst
    exact inReach_of_named hnamed (Rule.inReach_of_applyToStmt? (htable _ hr) hs happly)

theorem brings_applyToExpr_inReach (e : Expr) :
    forStops.Brings (applyToExpr table e) fun e' => e.InReach → e'.InReach := by
  refine brings_of_meets fun ok hok => (meets_applyToExpr fun _ _ _ => hok _).imp fun e' h he => ?_
  rcases h with rfl | ⟨r, hfirst, -⟩
  · exact he
  · obtain ⟨hr, happly⟩ := mem_of_firstMatch? hfirst
    exact Rule.inReach_of_applyToExpr? (htable r hr) he happly

theorem carries_clears : forStops.Carries table Clears where
  inPlace {c t us} hc h ht :=
    cleared_rebuild h ht (holdsSequence_of_ne _ (by rintro rfl; cases hc) (by rintro rfl; cases hc))
  block b := (brings_sweep_inReach htable b).imp fun ss hss items hitems hb => by
    have hcleared : items.Cleared := hitems (hss hb)
    refine cleared_blockOf (isSequence_splice _) (everywhere_splice fun s hs => ?_)
    exact hcleared.reached (mem_reached_of_toList hs)
  body := brings_coerce_cleared
  stmt s := (brings_simplifyStmt_inReach htable s).imp fun s' hs' us hus hs =>
    cleared_rebuild hus (hs' hs) (holdsSequence_of_ne _ nofun nofun)
  expr e := (brings_applyToExpr_inReach htable e).imp fun e' he' us hus he =>
    cleared_rebuild hus (he' he) (holdsSequence_of_ne _ nofun nofun)

/-- After a walk that did not stop, no list and no body holds a sequence. -/
theorem cleared_walk (depth : Nat) {c : Category} {t : Tree c} (ht : t.InReach) {s : State}
    (h : ((walk table depth c t).run s).2.error = Option.none) :
    ((walk table depth c t).run s).1.Cleared :=
  ((carries_clears htable).brings_walk depth c t s).elim (fun hs => hs.2 ht) fun hstop => absurd h hstop

end

end Pass

namespace ScopeGraph

open Tree

variable {g : ScopeGraph}

theorem isSequence_renamed {c : Category} (t : Tree c) : (g.renamed t).isSequence = t.isSequence := by
  cases c with
  | stmt => cases t <;> rfl
  | _ => exact (isSequence_of_ne (g.renamed t) nofun).trans (isSequence_of_ne t nofun).symm

/-- Renames put in no sequence. -/
theorem spliced_renamed {c : Category} {t : Tree c} (h : t.Spliced) : (g.renamed t).Spliced := by
  let sequence? : Phrase → Option Unit := fun q => if q.2.isSequence then some () else Option.none
  have hspliced : ∀ t : Tree c, t.Spliced ↔ t.phrases.filterMap sequence? = [] := by
    intro t
    simp only [Spliced, Everywhere, List.filterMap_eq_nil_iff, sequence?]
    simp
  rw [hspliced, filterMap_renamed, ← hspliced]
  · exact h
  · intro c t _ hc _
    simp only [sequence?, isSequence_of_ne t hc]
    rfl
  · intro c t _
    simp only [sequence?, isSequence_renamed]

end ScopeGraph

namespace RuleTable

open Pass

variable {table : RuleTable} {p : Program}

theorem spliced_passTo (htable : ∀ r ∈ table.rules, r.replacement.phrase.2.InReach)
    (hp : p.body.InReach) {depth : Nat} {stats : Stats} (hok : (table.passTo depth p).2 = .ok stats) :
    (table.passTo depth p).1.body.Spliced := by
  have hcleared := cleared_walk htable depth hp (s := { graph := p.scopeGraph })
  rw [passTo] at hok ⊢
  generalize (walk table depth .block p.body).run { graph := p.scopeGraph } = result at hok hcleared
  obtain ⟨body, s⟩ := result
  cases herror : s.error with
  | none =>
    rw [outcome_of_none herror, ScopeGraph.fst_applyRenames]
    exact ScopeGraph.spliced_renamed ((hcleared herror).spliced trivial)
  | some e =>
    rw [outcome_of_some herror] at hok
    cases hok

/-- **No sequence is left.** Whatever the rules, the settings of the matcher and the depth to which
replacements are followed: a pass that does not stop leaves no sequence anywhere in the program, however
sequences were nested in the program, in templates, or in what holes stand for. All that is asked is that
no dot access of the program or of a template has a sequence in its property; the strings of names, which
is what is read there, have none (`inReach_of_dotNamed`). -/
theorem spliced_pass (htable : ∀ r ∈ table.rules, r.replacement.phrase.2.InReach) (hp : p.body.InReach) :
    (∀ stats, (table.pass p).2 = .ok stats → (table.pass p).1.body.Spliced) ∧
      ∀ depth stats, (table.passTo depth p).2 = .ok stats → (table.passTo depth p).1.body.Spliced :=
  ⟨fun _ => spliced_passTo htable hp, fun _ _ => spliced_passTo htable hp⟩

/-- The rule that puts two statements, one of them in a sequence of its own and the other with a sequence
as its body, in the place of `a;`. -/
def spreadRule : Rule where
  name := "spread"
  pattern := .stmt (.exprStmt (.identExpr (.ident "a" none)))
  replacement := .stmt (.sequence (Tree.blockOf [
    .sequence (Tree.blockOf [.exprStmt (.identExpr (.ident "b" none))]),
    .whileStmt (.identExpr (.ident "c" none)) (.body (.sequence (Tree.blockOf [
      .exprStmt (.identExpr (.ident "d" none))])))]))
  agree := rfl

/-- `if (x) a, y.z;` in a sequence inside another one. -/
def spreadUse : Program where
  body := Tree.blockOf [.sequence (Tree.blockOf [.sequence (Tree.blockOf [
    .ifStmt (.identExpr (.ident "x" (some 4)))
      (.body (.exprStmt (.comma (.ofList [.identExpr (.ident "a" (some 7)),
        .access false false (.identExpr (.ident "y" (some 10))) (.literal (.string "z"))]))))
      .none])])]

/-- Sequences of the program, of a split, of a template and of a body come together. -/
theorem spliced_pass_spreadUse :
    let table : RuleTable := { rules := [spreadRule] }
    (∀ r ∈ table.rules, r.replacement.phrase.2.InReach) ∧ spreadUse.body.InReach ∧
      (table.pass spreadUse).2 = .ok { applied := ["spread"], split := 1, coerced := 2 } ∧
      (table.pass spreadUse).1.body.Spliced := by
  intro table
  have htable : ∀ r ∈ table.rules, r.replacement.phrase.2.InReach := by decide +kernel
  have hdots : spreadUse.body.Everywhere fun q => q.2.dotNamed = true := by decide +kernel
  have hok : (table.pass spreadUse).2 = .ok { applied := ["spread"], split := 1, coerced := 2 } := by
    decide +kernel
  have hp := Tree.inReach_of_dotNamed hdots
  exact ⟨htable, hp, hok, (spliced_pass htable hp).1 _ hok⟩

/-- The rule that puts `b` with a property in the place of `x`, where the property is a function with a
sequence in it. -/
def hidingRule : Rule where
  name := "hide"
  pattern := .expr (.identExpr (.ident "x" none))
  replacement := .expr (.access false false (.identExpr (.ident "b" none)) (.functionExpr
    (.function false false .none .nil (Tree.blockOf [.sequence (Tree.blockOf [
      .exprStmt (.identExpr (.ident "c" none))])]))))
  agree := rfl

/-- A template may hide a sequence where no walk comes. -/
theorem not_spliced_hidden :
    ¬ ∀ (table : RuleTable) (p : Program), (p.body.Everywhere fun q => q.2.dotNamed = true) →
      ∀ stats, (table.pass p).2 = .ok stats → (table.pass p).1.body.Spliced := by
  intro h
  have hspliced := h { rules := [hidingRule] }
    ⟨Tree.blockOf [.exprStmt (.identExpr (.ident "x" (some 0)))]⟩
    (by decide +kernel) { applied := ["hide"] } (by decide +kernel)
  revert hspliced
  decide +kernel

end RuleTable

end Unminify
