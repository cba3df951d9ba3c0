import Unminify.Proofs.Pass.Completeness

/-!
# Sweeps over statement lists

A sweep goes through a statement list once, from left to right. What it does is a `Scan`: the list is
cut into segments, each of which is either a statement that is kept or a window that the first rule
that fires there has replaced. The scan goes on behind a window, in the list as it was, so nothing
that a rule put in is looked at again, and no two windows overlap.

`run_sweep` says so of every sweep, also of one that stops because a template cannot be filled;
`sweep_scan` is what it comes to where no fill fails.
-/

namespace Unminify.Pass

/-! ## The rule that decides -/

/-- The window of a rule fits and matches the front of a statement list. -/
structure Fires (options : MatchOptions) (r : Rule) (ss : List Stmt) (length : Nat)
    (outcome : Except FillError Stmt) : Prop where
  window : r.window? = some length
  fits : length ≤ ss.length
  applies : r.applyToList? options (ss.take length) = some outcome

/-- A rule is the first one of a table that fires at the front of a statement list. -/
def Decides (table : RuleTable) (ss : List Stmt) (r : Rule) (length : Nat)
    (outcome : Except FillError Stmt) : Prop :=
  ∃ before after, table.rules = before ++ r :: after ∧ Fires table.options r ss length outcome ∧
    ∀ r' ∈ before, ∀ length' outcome', ¬ Fires table.options r' ss length' outcome'

/-- No rule of a table fires at the front of a statement list. -/
def Quiet (table : RuleTable) (ss : List Stmt) : Prop :=
  ∀ r ∈ table.rules, ∀ length outcome, ¬ Fires table.options r ss length outcome

variable {table : RuleTable} {ss : List Stmt}

/-- One rule's turn at the front of a statement list. -/
def fire? (options : MatchOptions) (ss : List Stmt) (rule : Rule) : Option WindowMatch := do
  let length ← rule.window?
  if ss.length < length then none
  else return { rule, length, outcome := ← rule.applyToList? options (ss.take length) }

theorem windowAt?_eq : windowAt? table ss = table.rules.findSome? (fire? table.options ss) := rfl

theorem fire?_eq_some {options : MatchOptions} {r : Rule} {m : WindowMatch} :
    fire? options ss r = some m ↔ m.rule = r ∧ Fires options r ss m.length m.outcome := by
  simp only [fire?, Option.bind_eq_bind, Option.bind_eq_some_iff]
  constructor
  · rintro ⟨length, hwindow, hm⟩
    split at hm
    · cases hm
    · rename_i hfits
      obtain ⟨outcome, happlies, hm⟩ := Option.bind_eq_some_iff.mp hm
      cases hm
      exact ⟨rfl, hwindow, Nat.le_of_not_lt hfits, happlies⟩
  · rintro ⟨rfl, h⟩
    refine ⟨m.length, h.window, ?_⟩
    rw [if_neg (Nat.not_lt.mpr h.fits), h.applies]
    rfl

theorem fire?_eq_none {options : MatchOptions} {r : Rule} :
    fire? options ss r = none ↔ ∀ length outcome, ¬ Fires options r ss length outcome := by
  rw [Option.eq_none_iff_forall_ne_some]
  constructor
  · intro h length outcome hfires
    exact h ⟨r, length, outcome⟩ (fire?_eq_some.mpr ⟨rfl, hfires⟩)
  · intro h m hm
    exact h _ _ (fire?_eq_some.mp hm).2

theorem quiet_iff : Quiet table ss ↔ windowAt? table ss = none := by
  rw [windowAt?_eq, List.findSome?_eq_none_iff]
  exact forall₂_congr fun r _ => fire?_eq_none.symm

theorem decides_iff {r : Rule} {length : Nat} {outcome : Except FillError Stmt} :
    Decides table ss r length outcome ↔ windowAt? table ss = some ⟨r, length, outcome⟩ := by
  rw [windowAt?_eq, List.findSome?_eq_some_iff]
  constructor
  · rintro ⟨before, after, hrules, hfires, hbefore⟩
    exact ⟨before, r, after, hrules, fire?_eq_some.mpr ⟨rfl, hfires⟩,
      fun r' hr' => fire?_eq_none.mpr (hbefore r' hr')⟩
  · rintro ⟨before, r', after, hrules, hm, hbefore⟩
    obtain ⟨rfl, hfires⟩ := fire?_eq_some.mp hm
    exact ⟨before, after, hrules, hfires, fun r' hr' => fire?_eq_none.mp (hbefore r' hr')⟩

theorem decides_of_windowAt? {m : WindowMatch} {outcome : Except FillError Stmt}
    (h : windowAt? table ss = some m) (houtcome : m.outcome = outcome) :
    Decides table ss m.rule m.length outcome :=
  decides_iff.mpr (houtcome ▸ h)

theorem Decides.not_quiet {r : Rule} {n : Nat} {x : Except FillError Stmt} (h : Decides table ss r n x) :
    ¬ Quiet table ss := fun hquiet =>
  nomatch (quiet_iff.mp hquiet).symm.trans (decides_iff.mp h)

/-- Only one rule is the first that fires, and it makes one thing of its window. -/
theorem Decides.unique {r r' : Rule} {n n' : Nat} {x x' : Except FillError Stmt}
    (h : Decides table ss r n x) (h' : Decides table ss r' n' x') : r = r' ∧ n = n' ∧ x = x' := by
  obtain ⟨⟩ := (decides_iff.mp h).symm.trans (decides_iff.mp h')
  exact ⟨rfl, rfl, rfl⟩

/-! ## Scans -/

/-- What a scan makes of a piece of a statement list. -/
inductive Segment
  /-- A statement that is left as it is. -/
  | kept (s : Stmt)
  /-- A window that a rule has replaced. -/
  | replaced (r : Rule) (window : List Stmt) (replacement : Stmt)

namespace Segment

/-- The statements that a segment covers. -/
def covered : Segment → List Stmt
  | kept s => [s]
  | replaced _ window _ => window

/-- The statements that come of a segment. A sequence contributes its members. -/
def output : Segment → List Stmt
  | kept s => [s]
  | replaced _ _ replacement => members replacement

/-- The name of the rule that is counted for a segment. -/
def applied? : Segment → Option String
  | kept _ => none
  | replaced r _ _ => some r.name

end Segment

/-- Whether a replacement is the same as the window it is for. -/
def Redundant (replacement : Stmt) (window : List Stmt) : Prop :=
  (Tree.ofList (members replacement)).same (Tree.ofList window) = true

/-- A left-to-right scan of a statement list: the segments it has made, and the list behind them that
is still to be scanned. -/
inductive Scan (table : RuleTable) : List Stmt → List Segment → List Stmt → Prop
  | stop (ss : List Stmt) : Scan table ss [] ss
  /-- No rule fires: the first statement is kept. -/
  | quiet {s : Stmt} {ss rest : List Stmt} {segments : List Segment} (hquiet : Quiet table (s :: ss))
    (hscan : Scan table ss segments rest) : Scan table (s :: ss) (.kept s :: segments) rest
  /-- The rule that decides changes nothing: the first statement is kept. -/
  | redundant {s replacement : Stmt} {ss rest : List Stmt} {segments : List Segment} {r : Rule}
    {length : Nat} (hdecides : Decides table (s :: ss) r length (.ok replacement))
    (hsame : Redundant replacement ((s :: ss).take length)) (hscan : Scan table ss segments rest) :
    Scan table (s :: ss) (.kept s :: segments) rest
  /-- The rule that decides replaces its window: the scan goes on behind the window. -/
  | replaced {s replacement : Stmt} {ss rest : List Stmt} {segments : List Segment} {r : Rule}
    {length : Nat} (hdecides : Decides table (s :: ss) r length (.ok replacement))
    (hchanged : ¬ Redundant replacement ((s :: ss).take length))
    (hscan : Scan table ((s :: ss).drop length) segments rest) :
    Scan table (s :: ss) (.replaced r ((s :: ss).take length) replacement :: segments) rest

/-- The segments of a scan cover the list in order and without overlap. -/
theorem Scan.covered {segments : List Segment} {rest : List Stmt} (h : Scan table ss segments rest) :
    segments.flatMap Segment.covered ++ rest = ss := by
  induction h with
  | stop => rfl
  | quiet _ _ ih => exact congrArg _ ih
  | redundant _ _ _ ih => exact congrArg _ ih
  | replaced _ _ _ ih =>
    rw [List.flatMap_cons, List.append_assoc, ih]
    exact List.take_append_drop _ _

/-- A template cannot be filled where a scan has come to. -/
def Blocked (table : RuleTable) (ss : List Stmt) (r : Rule) (cause : FillError) : Prop :=
  ∃ length, Decides table ss r length (.error cause)

/-! ## Sweeps -/

/-- A state, with names of rules that have been applied since. -/
def State.counting (s : State) (names : List String) : State :=
  { s with stats := { s.stats with applied := s.stats.applied ++ names } }

theorem State.counting_nil (s : State) : s.counting [] = s := by
  rw [counting, List.append_nil]

theorem State.counting_cons (s : State) (name : String) (names : List String) :
    s.counting (name :: names) = (s.counting [name]).counting names :=
  congrArg (fun applied => { s with stats := { s.stats with applied } }) (List.append_cons _ _ _)

/-- How a sweep ends that has scanned a list to a rest: with nothing left, or where a template cannot
be filled. -/
inductive Ends (table : RuleTable) (counted : State) : List Stmt → State → Prop
  | done : Ends table counted [] counted
  | failed {rest : List Stmt} {r : Rule} {cause : FillError} (hblocked : Blocked table rest r cause) :
    Ends table counted rest ((fail (.fill r.name cause)).run counted).2

/-- A sweep scans its list to the end or to where a template cannot be filled. It leaves what comes of
the segments and the rest, and counts each window that it has replaced once, under its rule. -/
theorem run_sweep (hwindows : ∀ r ∈ table.rules, r.window? ≠ some 0) (ss : List Stmt) (s : State) :
    ∃ segments rest s', Scan table ss segments rest ∧
      Ends table (s.counting (segments.filterMap Segment.applied?)) rest s' ∧
      (sweep table ss).run s = (segments.flatMap Segment.output ++ rest, s') := by
  fun_induction sweep table ss generalizing s with
  | case1 => exact ⟨[], [], s, .stop [], s.counting_nil.symm ▸ .done, rfl⟩
  | case2 first rest hnone ih =>
    obtain ⟨segments, behind, s', hscan, hends, hrun⟩ := ih s
    refine ⟨.kept first :: segments, behind, s', .quiet (quiet_iff.mpr hnone) hscan, hends, ?_⟩
    rw [StateT.run_bind, hrun]
    rfl
  | case3 first rest m hm cause hcause =>
    refine ⟨[], first :: rest, _, .stop _, .failed ⟨m.length, decides_of_windowAt? hm hcause⟩, ?_⟩
    rw [List.filterMap_nil, State.counting_nil]
    rfl
  | case4 first rest m hm replacement hok new hsame ih =>
    obtain ⟨segments, behind, s', hscan, hends, hrun⟩ := ih s
    have hdecides := decides_of_windowAt? hm hok
    refine ⟨.kept first :: segments, behind, s', .redundant hdecides hsame hscan, hends, ?_⟩
    rw [StateT.run_bind, hrun]
    rfl
  | case5 first rest m hm replacement hok new hchanged hlength =>
    obtain ⟨hr, hwindow, -⟩ := mem_of_windowAt? hm
    exact absurd (hlength ▸ hwindow) (hwindows m.rule hr)
  | case6 first rest m hm replacement hok new hchanged n hlength ih =>
    obtain ⟨segments, behind, s', hscan, hends, hrun⟩ := ih (s.counting [m.rule.name])
    have hdecides := decides_of_windowAt? hm hok
    rw [← State.counting_cons] at hends
    refine ⟨_, behind, s', .replaced hdecides hchanged ?_, hends, ?_⟩
    · rw [hlength]
      exact hscan
    · show (sweep table (rest.drop n) >>= fun swept => pure (new ++ swept)).run
        (s.counting [m.rule.name]) = _
      rw [StateT.run_bind, hrun, List.flatMap_cons, List.append_assoc]
      rfl

/-- There is one way only to scan a list to its end. -/
theorem Scan.unique {segments segments' : List Segment} (h : Scan table ss segments [])
    (h' : Scan table ss segments' []) : segments = segments' := by
  generalize hend : ([] : List Stmt) = rest at h
  induction h generalizing segments' with
  | stop ss =>
    subst hend
    cases h'
    rfl
  | quiet hquiet _ ih =>
    cases h' with
    | quiet _ hscan => exact congrArg _ (ih hscan hend)
    | redundant hdecides => exact absurd hquiet hdecides.not_quiet
    | replaced hdecides => exact absurd hquiet hdecides.not_quiet
  | redundant hdecides hsame _ ih =>
    cases h' with
    | quiet hquiet => exact absurd hquiet hdecides.not_quiet
    | redundant _ _ hscan => exact congrArg _ (ih hscan hend)
    | replaced hdecides' hchanged =>
      obtain ⟨rfl, rfl, ⟨⟩⟩ := hdecides.unique hdecides'
      exact absurd hsame hchanged
  | replaced hdecides hchanged _ ih =>
    cases h' with
    | quiet hquiet => exact absurd hquiet hdecides.not_quiet
    | redundant hdecides' hsame =>
      obtain ⟨rfl, rfl, ⟨⟩⟩ := hdecides.unique hdecides'
      exact absurd hsame hchanged
    | replaced hdecides' _ hscan =>
      obtain ⟨rfl, rfl, ⟨⟩⟩ := hdecides.unique hdecides'
      exact congrArg _ (ih hscan hend)

/-- Complete rules can fill their templates wherever a scan comes to. -/
theorem Scan.not_blocked (htable : ∀ r ∈ table.rules, r.Complete) (hss : ∀ s ∈ ss, s.holes = [])
    {segments : List Segment} {rest : List Stmt} (h : Scan table ss segments rest) (r : Rule)
    (cause : FillError) : ¬ Blocked table rest r cause := by
  rintro ⟨length, before, after, hrules, hfires, -⟩
  have hr := htable r (hrules ▸ List.mem_append_right _ List.mem_cons_self)
  have hwindow : ∀ s ∈ rest.take length, s.holes = [] := fun s hs =>
    hss s (h.covered ▸ List.mem_append_right _ (List.mem_of_mem_take hs))
  obtain ⟨s, hs, -⟩ := hr.applyToList? (holes_ofList.mpr hwindow) hfires.applies
  cases hs

example : ((windowAt? { rules := [RuleTable.joinRule] } RuleTable.joinUse.body.statements).map
    (·.length)) = some 2 := by
  decide +kernel

end Unminify.Pass
