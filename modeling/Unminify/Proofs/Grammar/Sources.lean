import Unminify.Proofs.Grammar.Statements

/-!
# What is read of whole sources

A source is scanned from its first gap to its end. A program that was read holds the comments passed on
the way, each as often as it was passed (`Program.remarks_read`), and identifiers that are spelled at
their positions, no two at the same (`Program.spelled_read`).

The line that names an interpreter is only looked for at the beginning, so its parser is followed from
the state in which a script starts. That no comment stays loose at the end is known from the way in which
scripts are parsed: each statement gives its loose comments back (`loose_pushStatement`).
-/

namespace Unminify.Grammar

open Character Content Unminify.Grammar.Parser

/-! ## Scripts -/

/-- A state in which a script starts: no token of the source is taken yet. -/
structure State.Starts (source : String) (s : State) : Prop where
  stands : s.Stands source
  gapped : s.next.here = [] ∨ Gapped (withoutMark source.toList) s.met s.next.here

/-- The state behind the comments in front of the look-ahead. -/
def State.withoutLead (s : State) : State :=
  { s with next := { s.next with gap := [] }, passed := (commentsOf s.next.gap).reverse ++ s.passed }

theorem State.met_withoutLead (s : State) : s.withoutLead.met = s.met := by
  simp [met, withoutLead, commentsOf]

section

variable {source : String} {s : State} {before : List Content}

/-- The line of an interpreter is taken up to its end, and passed as a comment. -/
theorem interpreterLine_eq_some {line : String} {s' : State} (h : interpreterLine s = some (line, s')) :
    ∃ text rest, s.next.here = text ++ rest ∧ ((after? "#!".toList text).isSome ∧ '\n' ∉ text) ∧
      line = String.ofList text ∧
      ∃ t, t = s.resumed (s.next.start + byteLength text) rest ∧ s' = { t with passed := line :: t.passed } := by
  obtain ⟨_, _, hget, h⟩ := bind_eq_some h
  obtain ⟨rfl, rfl⟩ := Prod.mk.inj (Option.some.inj hget)
  obtain ⟨found, t, hahead, h⟩ := bind_eq_some h
  obtain rfl := Markup.looks_ahead _ _ _ _ hahead
  obtain rfl := Markup.ahead_eq_some hahead
  obtain ⟨_, t, hrequire, h⟩ := bind_eq_some h
  obtain rfl := looks_require _ _ _ _ hrequire
  cases h
  refine ⟨_, _, List.takeWhile_append_dropWhile.symm, ⟨?_, fun hmem => ?_⟩, rfl, _, rfl, rfl⟩
  · exact after?_takeWhile (by decide) (require_eq_some hrequire)
  · simpa using List.all_eq_true.mp List.all_takeWhile _ hmem

/-- The line of an interpreter is read as a comment. -/
theorem readsFrom_interpreterLine (hs : s.Starts source) (hgap : s.next.gap = []) :
    ReadsFrom source s before interpreterLine fun line => before ++ [remarks [line]] := by
  intro lo line s' hbehind hrun
  obtain ⟨text, rest, hhere, hline, rfl, t, rfl, rfl⟩ := interpreterLine_eq_some hrun
  have hgapped : Gapped (withoutMark source.toList) s.met (text ++ rest) := by
    rw [← hhere]
    refine hs.gapped.resolve_left fun hnil => ?_
    obtain ⟨rfl, -⟩ := List.append_eq_nil_iff.mp (hhere.symm.trans hnil)
    exact absurd hline.1 (by decide)
  have hmoves : Moves before s before (s.resumed (s.next.start + byteLength text) rest) :=
    moves_resumed (Nat.le_add_right _ _) rest
  have hcomments : commentsOf s.next.gap = [] := by rw [hgap, commentsOf, List.filterMap_nil]
  refine ⟨⟨⟨?_, ?_⟩, Nat.le_trans hbehind.le_start hmoves.start_le, ?_⟩, hmoves.start_le, ?_, fun hread => ⟨?_, ?_⟩⟩
  · obtain ⟨before, hsource, hstart⟩ := hs.stands.placed.here
    refine Lexeme.placed_next (before ++ text) ?_ ?_
    · rw [hsource, hhere, List.append_assoc]
    · rw [hstart, byteLength_append]
  · refine (Lexeme.next_cases _ _).imp id fun h => ?_
    have hscanned := Scanned.interpreter hgapped hline h.1
    simpa [State.met, State.resumed, hcomments] using hscanned
  · exact (spans_remarks_iff _).mpr (hbehind.spans.mono hmoves.start_le)
  · exact hmoves.passed.trans (List.suffix_cons _ _)
  · exact (List.forall_mem_append.mp hread).1
  · simp only [State.resumed, hcomments, commentsIn_append, commentsIn_singleton, remarks, List.reverse_nil,
      List.nil_append, List.perm_iff_count, List.count_append, List.count_cons, List.count_nil]
    intro text
    omega

theorem readsFrom_script {rules : Rules} (hr : rules.Sound) (hs : s.Starts source) :
    ReadsFrom source s [] (script rules) fun r => phrase r.reading := by
  have ht : (s.withoutLead).Starts source :=
    ⟨hs.stands.congr rfl s.met_withoutLead, s.met_withoutLead ▸ hs.gapped⟩
  have hnone : ReadsFrom source s.withoutLead [remarks (commentsOf s.next.gap)] (pure (none : Option String))
      fun first => [remarks (commentsOf s.next.gap)] ++ [remarks first.toList] :=
    Reads.from (.pure (.append (.refl : Gives [_] _) .nil_remarks))
  refine .then rfl (reads_takeLead source s) ?_
  refine .via (fun first : Option String => [remarks (commentsOf s.next.gap)] ++ [remarks first.toList])
    (.orElse (.map (readsFrom_interpreterLine ht rfl)) hnone) fun first => ?_
  refine .bind (reads_repeatFrom (fun r : Members × Option Statement => membersContent r.1) ?_ fun r => ?_)
    fun r => .get fun source s => Reads.from (.pure ?_)
  · exact (Gives.remarks_append _ _).trans (gives_pushComments _ [])
  rotate_left
  · exact gives_blockOfMembers r.1
  refine .bind reads_takeLead fun lead => .of_gives (gives_pushComments lead r.1) ?_
  refine .bind (reads_of_looks looks_peek) fun _ => ?_
  split
  · exact .pure .refl
  · exact .bind (reads_pushStatement hr [] _) fun _ => .pure .refl

end

/-! ## Where scripts end -/

/-- A loop that goes on from good states to good ones ends in a state that ends it. -/
theorem loop_ends {σ : Type} {step : σ → Parser (σ × Bool)} (good final : State → Prop)
    (hgoes : ∀ x s x' s', good s → step x s = some ((x', true), s') → good s')
    (hends : ∀ x s x' s', good s → step x s = some ((x', false), s') → final s') {n : Nat} {x x' : σ}
    {s s' : State} (hs : good s) (h : loop step n x s = some (x', s')) : final s' := by
  induction n generalizing x s with
  | zero => cases h
  | succ n ih =>
    obtain ⟨⟨y, more⟩, t, hstep, h⟩ := bind_eq_some h
    cases more with
    | true => exact ih (hgoes x s y t hs hstep) h
    | false =>
      obtain ⟨rfl, rfl⟩ := pure_eq_some h
      exact hends x s x' s' hs hstep

theorem loose_pushStatement {rules : Rules} {members : Members} {r : Members × Statement} {s s' : State}
    (h : pushStatement rules members s = some (r, s')) : s'.loose = s.loose := by
  obtain ⟨_, t, hcollect, h⟩ := bind_eq_some h
  obtain ⟨rfl, rfl⟩ := pure_eq_some h
  obtain ⟨_, _, hget, hcollect⟩ := bind_eq_some hcollect
  obtain ⟨rfl, rfl⟩ := Prod.mk.inj (Option.some.inj hget)
  obtain ⟨_, _, hmodify, hcollect⟩ := bind_eq_some hcollect
  cases hmodify
  obtain ⟨_, _, -, hcollect⟩ := bind_eq_some hcollect
  cases hcollect
  rfl

/-- A script ends at the end of the input, without loose comments. -/
theorem script_ends {rules : Rules} {r : Script} {s s' : State} (hloose : s.loose = [])
    (h : script rules s = some (r, s')) :
    (s'.loose = [] ∧ s'.next.token = .endOfInput ∧ s'.next.gap = []) ∧ r.comments = s'.passed.reverse := by
  obtain ⟨_, t, hlead, h⟩ := bind_eq_some h
  cases hlead
  obtain ⟨first, t, hfirst, h⟩ := bind_eq_some h
  have ht : t.loose = [] := by
    rcases orElse_eq_some hfirst with hfirst | hfirst
    · obtain ⟨line, hline, -⟩ := map_eq_some hfirst
      obtain ⟨_, _, -, -, -, _, rfl, rfl⟩ := interpreterLine_eq_some hline
      exact hloose
    · cases hfirst
      exact hloose
  obtain ⟨x, t', hloop, h⟩ := bind_eq_some h
  obtain ⟨_, _, hget, hloop⟩ := bind_eq_some hloop
  cases hget
  cases h
  refine ⟨loop_ends (fun s => s.loose = [])
    (fun s => s.loose = [] ∧ s.next.token = .endOfInput ∧ s.next.gap = []) ?_ ?_ ht hloop, rfl⟩
  · intro x s x' s' hs hstep
    obtain ⟨_, _, hlead, hstep⟩ := bind_eq_some hstep
    cases hlead
    obtain ⟨_, _, hpeek, hstep⟩ := bind_eq_some hstep
    cases hpeek
    split at hstep
    · cases hstep
    · obtain ⟨_, _, hpush, hstep⟩ := bind_eq_some hstep
      cases hstep
      exact (loose_pushStatement hpush).trans hs
  · intro x s x' s' hs hstep
    obtain ⟨_, _, hlead, hstep⟩ := bind_eq_some hstep
    cases hlead
    obtain ⟨_, _, hpeek, hstep⟩ := bind_eq_some hstep
    cases hpeek
    split at hstep
    next hend =>
      cases hstep
      exact ⟨hs, eq_of_beq hend, rfl⟩
    · obtain ⟨_, _, hpush, hstep⟩ := bind_eq_some hstep
      cases hstep

/-! ## Sources -/

/-- The state in which a source is parsed from a given place on. -/
def State.at (position : Nat) (cs : List Char) : State :=
  { next := Lexeme.next position cs, last := position, loose := [] }

theorem State.starts_at {source : String} {before cs : List Char} (hsource : source.toList = before ++ cs)
    (hcs : withoutMark source.toList = cs) : (State.at (byteLength before) cs).Starts source := by
  have hgapped := Lexeme.next_cases (byteLength before) cs
  have hmet : (State.at (byteLength before) cs).met = commentsOf (Lexeme.next (byteLength before) cs).gap := rfl
  refine ⟨⟨Lexeme.placed_next before hsource rfl, hgapped.imp id fun h => ?_⟩, hgapped.imp And.left fun h => ?_⟩
  · rw [hcs, hmet]
    exact .start h.1
  · rw [hcs, hmet]
    exact h.1

/-- A source is parsed from behind its byte order mark on. -/
theorem exists_run_eq_parse? (source : String) : ∃ before, source.toList = before ++ withoutMark source.toList ∧
    parse? source = (script (grammar (32 * ((withoutMark source.toList).length + 8)))).run'
      (State.at (byteLength before) (withoutMark source.toList)) := by
  unfold parse?
  generalize source.toList = cs
  fun_cases withoutMark cs with
  | case1 cs => exact ⟨['\ufeff'], rfl, rfl⟩
  | case2 cs hcs =>
    refine ⟨[], rfl, ?_⟩
    split
    next hmark =>
      split at hmark
      next => exact (hcs _ rfl).elim
      next =>
        cases hmark
        rfl

/-- A parsed source is read from its beginning to its end. -/
theorem parse?_accounts {source : String} {r : Script} (h : parse? source = some r) :
    (∃ lo hi, Spans source (phrase r.reading) lo hi) ∧ Scanned (withoutMark source.toList) r.comments [] ∧
      ((∀ c ∈ phrase r.reading, c.read) → (commentsIn (phrase r.reading)).Perm r.comments) := by
  obtain ⟨before, hsource, hparse⟩ := exists_run_eq_parse? source
  obtain ⟨⟨r', s'⟩, hrun, rfl⟩ := Option.map_eq_some_iff.mp (hparse.symm.trans h)
  have hs := State.starts_at hsource rfl
  obtain ⟨hbehind, hmoves⟩ :=
    readsFrom_script (sound_grammar _) hs _ r' s' ⟨hs.stands, Nat.le_refl _, .nil⟩ hrun
  obtain ⟨⟨hloose, htoken, hgap⟩, hcomments⟩ := script_ends rfl hrun
  refine ⟨⟨_, _, hbehind.spans⟩, ?_, fun hread => ?_⟩
  · have hmet : s'.met = r'.comments := by
      rw [State.met, hgap, hcomments, commentsOf, List.filterMap_nil, List.append_nil]
    obtain ⟨-, hunknown⟩ | hscanned := hbehind.stands.scanned
    · rw [htoken] at hunknown
      cases hunknown
    · have hhere := hbehind.stands.placed.token.resolve_left (by simp [htoken])
      rw [htoken] at hhere
      rwa [tokenAt_eq_endOfInput hhere, hmet] at hscanned
  · have hperm := (hmoves.read hread).2
    rw [hloose] at hperm
    rw [hcomments]
    exact (List.append_nil _ ▸ hperm).trans (List.reverse_perm _).symm

end Unminify.Grammar

namespace Unminify

open Grammar Content

namespace Program

section

variable {source : String} {p : Program}

theorem exists_script_of_read (h : Program.read source = .ok p) :
    ∃ script, parse? source = some script ∧ script.reading = .ok p.body := by
  unfold Program.read at h
  split at h
  next script hparse =>
    refine ⟨script, hparse, ?_⟩
    cases hreading : script.reading with
    | error e => simp [hreading] at h
    | ok body =>
      obtain rfl : Program.mk body = p := by simpa [hreading] using h
      rfl
  next => cases h

/-- In a program that was read, every identifier is spelled at its position, which no other one has, and
all phrases have the form of phrases that are read. -/
theorem spans_read (h : Program.read source = .ok p) : ∃ lo hi, Spans source [tree p.body] lo hi := by
  obtain ⟨script, hparse, hreading⟩ := exists_script_of_read h
  have hspans := (parse?_accounts hparse).1
  rwa [hreading] at hspans

/-- The identifiers of a program that was read have positions, and no two the same. -/
theorem positioned_read (h : Program.read source = .ok p) : p.body.Positioned := by
  obtain ⟨lo, hi, hspans⟩ := spans_read h
  have hpositions : (namesIn [tree p.body]).map Prod.snd = p.body.positions := by
    rw [namesIn_singleton, Tree.positions_eq_spellings]
    rfl
  refine ⟨fun hmem => ?_, hpositions ▸ hspans.distinct⟩
  rw [← hpositions] at hmem
  obtain ⟨r, hr, hnone⟩ := List.mem_map.mp hmem
  obtain ⟨text, n, rfl, -⟩ := hspans.within r hr
  cases hnone

/-- The phrases of a program that was read have the form of phrases that are read. -/
theorem sourced_read (h : Program.read source = .ok p) : p.body.Sourced := by
  obtain ⟨lo, hi, hspans⟩ := spans_read h
  exact hspans.sound _ List.mem_cons_self

/-- There are no holes in a program that was read. -/
theorem holes_read (h : Program.read source = .ok p) : p.body.holes = [] :=
  List.filterMap_eq_nil_iff.mpr fun q hq => (sourced_read h q hq).hole?

end

/-- Every identifier of a program that was read is spelled at its position in the source, and no two have
the same position. -/
theorem spelled_read {source : String} {p : Program} (h : Program.read source = .ok p) :
    (∀ name ∈ p.body.phrases.filterMap Tree.identifier?,
      ∃ text i, name = .ident text (some i) ∧ Spelled source i text) ∧
    ((p.body.phrases.filterMap Tree.identifier?).map Tree.nameId?).Nodup := by
  obtain ⟨lo, hi, hspans⟩ := spans_read h
  have hnames : namesIn [tree p.body] = p.body.spellings := namesIn_singleton _
  refine ⟨fun name hname => ?_, ?_⟩
  · have hmem : (name.nameText?, name.nameId?) ∈ namesIn [tree p.body] := by
      rw [hnames]
      exact List.mem_map_of_mem hname
    obtain ⟨text, i, heq, -, -, hspelled⟩ := hspans.within _ hmem
    obtain ⟨htext, hid⟩ := Prod.mk.inj heq
    cases name with
    | ident => cases htext; cases hid; exact ⟨_, _, rfl, hspelled⟩
    | _ => cases htext
  · have hdistinct := hspans.distinct
    rwa [hnames, Tree.spellings, List.map_map] at hdistinct

/-- Behind a byte order mark, with letters of two bytes, defaults, shorthand members and the heads of
loops. -/
theorem spelled_read_markedUse :
    ∃ p, Program.read "\ufeff({a, b = ü}) => a; for (const [c = é] of b) c; ({d = c} = é);" = .ok p ∧
      p.body.spellings = [(some "a", some 5), (some "b", some 8), (some "ü", some 12), (some "a", some 20),
        (some "c", some 35), (some "é", some 39), (some "b", some 46), (some "c", some 49),
        (some "d", some 54), (some "c", some 58), (some "é", some 63)] ∧
      (∀ name ∈ p.body.phrases.filterMap Tree.identifier?, ∃ text i, name = .ident text (some i) ∧
        Spelled "\ufeff({a, b = ü}) => a; for (const [c = é] of b) c; ({d = c} = é);" i text) ∧
      ((p.body.phrases.filterMap Tree.identifier?).map Tree.nameId?).Nodup := by
  have hread : ((Program.read
      "\ufeff({a, b = ü}) => a; for (const [c = é] of b) c; ({d = c} = é);").toOption.map fun p =>
        p.body.spellings) =
      some [(some "a", some 5), (some "b", some 8), (some "ü", some 12), (some "a", some 20),
        (some "c", some 35), (some "é", some 39), (some "b", some 46), (some "c", some 49),
        (some "d", some 54), (some "c", some 58), (some "é", some 63)] := by
    rw [toOption_read, String.toList_ofList]
    decide +kernel
  cases hp : Program.read "\ufeff({a, b = ü}) => a; for (const [c = é] of b) c; ({d = c} = é);" with
  | error e =>
    rw [hp] at hread
    cases hread
  | ok p =>
    rw [hp] at hread
    exact ⟨p, rfl, Option.some.inj hread, spelled_read hp⟩

end Program

end Unminify
