import Unminify.Grammar.Nonterminal
import Unminify.Proofs.Grammar.Contents

/-!
# What parsers read

`Reads before p after` says that a parser which is run after some contents were read leaves other
contents behind. There is one rule for each way in which parsers are put together; what a parser of the
grammar reads is then found by going through its definition, and what is left to show is about trees
alone (`Reads.pure`).

Identifiers are the words of the source: they are spelled at the places where they start, and they are
distinct because words are not empty, so that a parser which has consumed a word stands behind its
start. Comments are neither lost nor doubled: those that a parser passes are among the loose ones or in
what it reads (`Moves`), unless something could not be read.
-/

namespace Unminify.Grammar

open Character

/-! ## Running parsers -/

namespace Parser

variable {α β : Type}

theorem bind_eq_some {p : Parser α} {f : α → Parser β} {s s' : State} {b : β}
    (h : (p >>= f) s = some (b, s')) : ∃ a t, p s = some (a, t) ∧ f a t = some (b, s') := by
  obtain ⟨⟨a, t⟩, hp, hf⟩ := Option.bind_eq_some_iff.mp h
  exact ⟨a, t, hp, hf⟩

theorem pure_eq_some {s s' : State} {a b : α} (h : (pure a : Parser α) s = some (b, s')) :
    b = a ∧ s' = s := by
  cases h
  exact ⟨rfl, rfl⟩

theorem map_eq_some {p : Parser α} {f : α → β} {s s' : State} {b : β} (h : (f <$> p) s = some (b, s')) :
    ∃ a, p s = some (a, s') ∧ b = f a := by
  rw [map_eq_pure_bind] at h
  obtain ⟨a, t, hp, hpure⟩ := bind_eq_some h
  obtain ⟨rfl, rfl⟩ := pure_eq_some hpure
  exact ⟨a, hp, rfl⟩

theorem orElse_eq_some {p q : Parser α} {s s' : State} {a : α} :
    (p <|> q) s = some (a, s') → p s = some (a, s') ∨ q s = some (a, s') := by
  show (p s <|> q s) = some (a, s') → _
  cases p s with
  | none => exact .inr
  | some r => exact .inl

end Parser

namespace Parser

/-- A parser that only looks at what comes next. -/
def Looks {α : Type} (p : Parser α) : Prop := ∀ s a s', p s = some (a, s') → s' = s

section

variable {α β : Type} {p : Parser α}

theorem looks_pure (a : α) : Looks (pure a) := fun _ _ _ h => (pure_eq_some h).2

theorem looks_get : Looks get := by
  intro s a s' h
  cases h
  rfl

theorem Looks.bind {f : α → Parser β} (h : Looks p) (hf : ∀ a, Looks (f a)) : Looks (p >>= f) := by
  intro s b s' hrun
  obtain ⟨a, t, hp, hrun⟩ := bind_eq_some hrun
  rw [← h s a t hp]
  exact hf a t b s' hrun

theorem looks_peek : Looks peek := .bind looks_get fun _ => looks_pure _

theorem looks_atMark (text : String) : Looks (atMark text) := .bind looks_peek fun _ => looks_pure _

theorem looks_atWord (text : String) : Looks (atWord text) := .bind looks_peek fun _ => looks_pure _

theorem looks_endsHere (afterExpression : Bool) : Looks (endsHere afterExpression) :=
  .bind looks_get fun _ => looks_pure _

theorem looks_atSemicolon (afterExpression : Bool) : Looks (atSemicolon afterExpression) :=
  .bind looks_get fun _ => looks_pure _

theorem looks_snippetFrom (start : Nat) (source : List Char) : Looks (snippetFrom start source) :=
  .bind looks_get fun _ => looks_pure _

theorem looks_foresees : Looks (foresees p) := by
  intro s a s' h
  obtain ⟨_, _, hget, h⟩ := bind_eq_some h
  cases hget
  obtain ⟨found, t, -, h⟩ := bind_eq_some h
  obtain ⟨_, _, hset, h⟩ := bind_eq_some h
  cases hset
  exact (pure_eq_some h).2

theorem looks_require (condition : Bool) : Looks (require condition) := by
  cases condition with
  | true => exact looks_pure ()
  | false =>
    intro s a s' h
    cases h

theorem require_eq_some {condition : Bool} {s s' : State} {a : Unit}
    (h : require condition s = some (a, s')) : condition = true := by
  cases condition with
  | true => rfl
  | false => cases h

end

end Parser

/-- A state in a source, behind contents that were read from some place on. -/
structure Behind (source : String) (lo : Nat) (cs : List Content) (s : State) : Prop where
  stands : s.Stands source
  le_start : lo ≤ s.next.start
  spans : Content.Spans source cs lo s.next.start

/-- A parser has gone on from one state to another, and the contents before it have become those after
it. The comments it has passed are now among the loose ones or in the contents, if all was read. -/
structure Moves (before : List Content) (s : State) (after : List Content) (s' : State) : Prop where
  start_le : s.next.start ≤ s'.next.start
  passed : s.passed <:+ s'.passed
  read : (∀ c ∈ after, c.read) → (∀ c ∈ before, c.read) ∧
    (s'.loose ++ Content.commentsIn after ++ s.passed).Perm
      (s.loose ++ Content.commentsIn before ++ s'.passed)

/-- Run from a state after some contents were read, a parser leaves others behind. -/
def ReadsFrom {α : Type} (source : String) (s : State) (before : List Content) (p : Parser α)
    (after : α → List Content) : Prop :=
  ∀ lo a s', Behind source lo before s → p s = some (a, s') →
    Behind source lo (after a) s' ∧ Moves before s (after a) s'

/-- Run anywhere after some contents were read, a parser leaves others behind. -/
def Reads {α : Type} (before : List Content) (p : Parser α) (after : α → List Content) : Prop :=
  ∀ source s, ReadsFrom source s before p after

open Content Unminify.Grammar.Parser

section

variable {cs ds es : List Content} {s s' s'' : State}

theorem Moves.refl : Moves cs s cs s :=
  ⟨Nat.le_refl _, List.suffix_refl _, fun h => ⟨h, .refl _⟩⟩

theorem Moves.trans (h : Moves cs s ds s') (h' : Moves ds s' es s'') : Moves cs s es s'' where
  start_le := Nat.le_trans h.start_le h'.start_le
  passed := h.passed.trans h'.passed
  read he := by
    obtain ⟨hd, hperm'⟩ := h'.read he
    obtain ⟨hc, hperm⟩ := h.read hd
    refine ⟨hc, ?_⟩
    simp only [List.perm_iff_count, List.count_append] at hperm hperm' ⊢
    intro text
    have hcount := hperm text
    have hcount' := hperm' text
    omega

theorem Moves.of_gives (h : Gives cs ds) : Moves cs s ds s where
  start_le := Nat.le_refl _
  passed := List.suffix_refl _
  read hd := ⟨(h.read hd).1, ((h.read hd).2.append_left _).append_right _⟩

/-- What was read before is kept beside what a parser reads. -/
theorem Moves.frame (h : Moves [] s ds s') (cs : List Content) : Moves cs s (cs ++ ds) s' where
  start_le := h.start_le
  passed := h.passed
  read hread := by
    rw [List.forall_mem_append] at hread
    refine ⟨hread.1, ?_⟩
    have hperm := (h.read hread.2).2
    simp only [List.perm_iff_count, List.count_append, commentsIn_append] at hperm ⊢
    intro text
    have hcount : _ = _ + (commentsIn []).count text + _ := hperm text
    rw [show (commentsIn []).count text = 0 from List.count_nil] at hcount
    omega

/-- Contents without comments may be added. -/
theorem Moves.beside (h : Moves cs s ds s') {c : Content} (hc : c.comments = []) :
    Moves cs s (ds ++ [c]) s' where
  start_le := h.start_le
  passed := h.passed
  read hread := by
    rw [commentsIn_append, commentsIn_singleton, hc, List.append_nil]
    exact h.read (List.forall_mem_append.mp hread).1

end

section

variable {α β σ : Type} {before : List Content} {after : α → List Content} {source : String} {s : State}
  {p q : Parser α}

theorem Reads.from (h : Reads before p after) : ReadsFrom source s before p after := h source s

theorem ReadsFrom.bind {f : α → Parser β} {later : β → List Content} (h : ReadsFrom source s before p after)
    (hf : ∀ a, Reads (after a) (f a) later) : ReadsFrom source s before (p >>= f) later := by
  intro lo b s' hs hrun
  obtain ⟨a, t, hp, hrun⟩ := bind_eq_some hrun
  obtain ⟨ht, hmoves⟩ := h lo a t hs hp
  obtain ⟨hs', hmoves'⟩ := hf a source t lo b s' ht hrun
  exact ⟨hs', hmoves.trans hmoves'⟩

/-- `ReadsFrom.bind`, with what is read in between given. -/
theorem ReadsFrom.via (after : α → List Content) {f : α → Parser β} {later : β → List Content}
    (h : ReadsFrom source s before p after) (hf : ∀ a, Reads (after a) (f a) later) :
    ReadsFrom source s before (p >>= f) later :=
  h.bind hf

theorem Reads.bind {f : α → Parser β} {later : β → List Content} (h : Reads before p after)
    (hf : ∀ a, Reads (after a) (f a) later) : Reads before (p >>= f) later :=
  fun source s => (h source s).bind hf

/-- `Reads.bind`, with what is read in between given. -/
theorem Reads.via (after : α → List Content) {f : α → Parser β} {later : β → List Content}
    (h : Reads before p after) (hf : ∀ a, Reads (after a) (f a) later) : Reads before (p >>= f) later :=
  h.bind hf

/-- Where a parser has come to in a known run, another goes on. -/
theorem ReadsFrom.then {f : α → Parser β} {later : β → List Content} {a : α} {t : State}
    (hrun : p s = some (a, t)) (h : ReadsFrom source s before p after)
    (hf : ReadsFrom source t (after a) (f a) later) : ReadsFrom source s before (p >>= f) later := by
  intro lo b s' hs hlater
  obtain ⟨a', t', hp, hlater⟩ := bind_eq_some hlater
  cases hrun.symm.trans hp
  obtain ⟨ht, hmoves⟩ := h lo a t hs hrun
  obtain ⟨hs', hmoves'⟩ := hf lo b s' ht hlater
  exact ⟨hs', hmoves.trans hmoves'⟩

/-- What a parser does may depend on where it stands. -/
theorem Reads.get {f : State → Parser β} {later : β → List Content}
    (h : ∀ source s, ReadsFrom source s before (f s) later) : Reads before (get >>= f) later := by
  intro source s lo b s' hs hrun
  obtain ⟨_, _, hget, hrun⟩ := bind_eq_some hrun
  cases hget
  exact h source s lo b s' hs hrun

theorem ReadsFrom.gives {after' : α → List Content} (h : ReadsFrom source s before p after)
    (hgives : ∀ a, Gives (after a) (after' a)) : ReadsFrom source s before p after' := by
  intro lo a s' hs hrun
  obtain ⟨hs', hmoves⟩ := h lo a s' hs hrun
  exact ⟨⟨hs'.stands, hs'.le_start, hs'.spans.gives (hgives a)⟩, hmoves.trans (.of_gives (hgives a))⟩

theorem Reads.gives {after' : α → List Content} (h : Reads before p after)
    (hgives : ∀ a, Gives (after a) (after' a)) : Reads before p after' :=
  fun source s => (h source s).gives hgives

theorem ReadsFrom.of_gives {before' : List Content} (hgives : Gives before' before)
    (h : ReadsFrom source s before p after) : ReadsFrom source s before' p after := by
  intro lo a s' hs hrun
  obtain ⟨hs', hmoves⟩ := h lo a s' ⟨hs.stands, hs.le_start, hs.spans.gives hgives⟩ hrun
  exact ⟨hs', .trans (.of_gives hgives) hmoves⟩

theorem Reads.of_gives {before' : List Content} (hgives : Gives before' before)
    (h : Reads before p after) : Reads before' p after :=
  fun source s => .of_gives hgives (h source s)

/-- Where a parser ends, what is left to show is about the contents alone. -/
theorem Reads.pure {a : α} (h : Gives before (after a)) : Reads before (pure a) after := by
  intro source s lo b s' hs hrun
  obtain ⟨rfl, rfl⟩ := pure_eq_some hrun
  exact ⟨⟨hs.stands, hs.le_start, hs.spans.gives h⟩, .of_gives h⟩

theorem ReadsFrom.map {f : α → β} {later : β → List Content}
    (h : ReadsFrom source s before p fun a => later (f a)) : ReadsFrom source s before (f <$> p) later := by
  rw [map_eq_pure_bind]
  exact h.bind fun a => .pure .refl

theorem Reads.map {f : α → β} {later : β → List Content} (h : Reads before p fun a => later (f a)) :
    Reads before (f <$> p) later :=
  fun source s => (h source s).map

/-- What was read before is kept beside what a parser reads. -/
theorem ReadsFrom.frame (h : ReadsFrom source s [] p after) (cs : List Content) :
    ReadsFrom source s cs p fun a => cs ++ after a := by
  intro lo a s' hs hrun
  obtain ⟨hs', hmoves⟩ := h s.next.start a s' ⟨hs.stands, Nat.le_refl _, .nil⟩ hrun
  refine ⟨⟨hs'.stands, Nat.le_trans hs.le_start hs'.le_start, ?_⟩, hmoves.frame cs⟩
  exact hs.spans.append hs'.spans hs.le_start hs'.le_start

theorem Reads.frame (h : Reads [] p after) (cs : List Content) :
    Reads cs p fun a => cs ++ after a :=
  fun source s => (h source s).frame cs

/-- A parser that reads nothing keeps what was read before. -/
theorem Reads.skip (h : Reads [] p fun _ => []) (cs : List Content) : Reads cs p fun _ => cs :=
  (h.frame cs).gives fun _ => .of_perm (by rw [List.append_nil])

/-- What a parser reads of a phrase without a tree is lost. -/
theorem Reads.lose (h : Reads [] p after) : Reads before (discard p) fun _ => [lost] :=
  .map ((h.frame before).gives fun _ => .lost)

theorem Reads.discard (h : Reads before p fun _ => before) : Reads before (discard p) fun _ => before :=
  .map h

theorem reads_of_looks (h : Looks p) : Reads before p fun _ => before := by
  intro source s lo a s' hs hrun
  rw [h s a s' hrun]
  exact ⟨hs, .refl⟩

/-- A parser that only looks stays where it is. -/
theorem ReadsFrom.look {f : α → Parser β} {later : β → List Content} (h : Looks p)
    (hf : ∀ a, p s = some (a, s) → ReadsFrom source s before (f a) later) :
    ReadsFrom source s before (p >>= f) later := by
  intro lo b s' hs hrun
  obtain ⟨a, t, hp, hlater⟩ := bind_eq_some hrun
  have hstay := h s a t hp
  subst hstay
  exact hf a hp lo b s' hs hlater

/-- What a parser does may be looked at knowing that it stands in a source. -/
theorem ReadsFrom.standing (h : s.Stands source → ReadsFrom source s before p after) :
    ReadsFrom source s before p after :=
  fun lo a s' hs hrun => h hs.stands lo a s' hs hrun

theorem reads_failure : Reads before (failure : Parser α) after := by
  intro source s lo a s' hs hrun
  cases hrun

theorem ReadsFrom.orElse (hp : ReadsFrom source s before p after) (hq : ReadsFrom source s before q after) :
    ReadsFrom source s before (p <|> q) after := by
  intro lo a s' hs hrun
  rcases orElse_eq_some hrun with hrun | hrun
  · exact hp lo a s' hs hrun
  · exact hq lo a s' hs hrun

theorem Reads.orElse (hp : Reads before p after) (hq : Reads before q after) :
    Reads before (p <|> q) after :=
  fun source s => (hp source s).orElse (hq source s)

theorem Reads.perhaps (h : Reads [] p after) : Reads [] (perhaps p) (ifPresent after) :=
  .orElse (.map h) (.pure .refl)

/-- A parser that is run only under a condition, and what comes after it. -/
theorem Reads.when {c : Bool} {p : Parser Unit} {f : Unit → Parser β} {later : β → List Content}
    (h : Reads before p fun _ => before) (hf : Reads before (f ()) later) :
    Reads before (if c = true then p >>= f else f ()) later := by
  cases c with
  | true => exact h.bind fun _ => hf
  | false => exact hf

/-- The first of several parsers that succeeds. -/
theorem reads_foldr_orElse {f : β → Parser α} (h : ∀ x, Reads before (f x) after) (xs : List β) :
    Reads before (xs.foldr (fun x other => f x <|> other) failure) after := by
  induction xs with
  | nil => exact reads_failure
  | cons x xs ih => exact (h x).orElse ih

/-- A step that keeps an invariant keeps it however often it is repeated. -/
theorem reads_loop (inv : σ → List Content) {step : σ → Parser (σ × Bool)}
    (h : ∀ x, Reads (inv x) (step x) fun r => inv r.1) (n : Nat) (x : σ) :
    Reads (inv x) (loop step n x) inv := by
  induction n generalizing x with
  | zero => exact reads_failure
  | succ n ih =>
    rw [loop]
    refine (h x).bind ?_
    rintro ⟨x, more⟩
    cases more with
    | true => exact ih x
    | false => exact .pure .refl

theorem reads_repeatFrom (inv : σ → List Content) {init : σ} {step : σ → Parser (σ × Bool)}
    (hinit : Gives before (inv init)) (h : ∀ x, Reads (inv x) (step x) fun r => inv r.1) :
    Reads before (repeatFrom init step) inv :=
  .of_gives hinit (.get fun source s => reads_loop inv h _ _ source s)

end

/-! ## Consuming tokens -/

section

variable {α : Type} {before : List Content} {source : String} {s : State} {text rest : List Char}

/-- A parser that goes on makes the comments before the look-ahead loose. -/
theorem moves_resumed {position : Nat} (h : s.next.start ≤ position) (cs : List Char) :
    Moves before s before (s.resumed position cs) where
  start_le := Nat.le_trans h (Lexeme.le_start_next position cs)
  passed := List.suffix_append _ _
  read hread := by
    refine ⟨hread, ?_⟩
    simp only [State.resumed, List.perm_iff_count, List.count_append]
    intro text
    omega

/-- A parser may go on behind a stretch of text. -/
theorem readsFrom_resumeAt (hhere : s.next.here = text ++ rest) (hstretch : Stretch text rest)
    (hthere : s.next.here ≠ [] ∨ s.next.token ≠ .unknown) {position : Nat}
    (hposition : position = s.next.start + byteLength text) :
    ReadsFrom source s before (resumeAt position rest) fun _ => before := by
  intro lo a s' hs hrun
  cases hrun
  have hmoves : Moves before s before (s.resumed position rest) := moves_resumed (by omega) rest
  refine ⟨⟨hs.stands.resumed hhere hstretch hposition hthere, ?_, ?_⟩, hmoves⟩
  · exact Nat.le_trans hs.le_start hmoves.start_le
  · exact hs.spans.mono hmoves.start_le

theorem advance_eq_some {a : Unit} {s' : State} (h : advance s = some (a, s')) :
    (s.next.token ≠ .endOfInput ∧ s.next.token ≠ .unknown) ∧ s' = s.resumed s.next.stop s.next.rest := by
  obtain ⟨_, _, hget, h⟩ := bind_eq_some h
  cases hget
  cases htoken : s.next.token <;> simp only [htoken] at h <;> cases h
  all_goals exact ⟨⟨nofun, nofun⟩, rfl⟩

theorem reads_advance : Reads before advance fun _ => before := by
  intro source s lo a s' hs hrun
  obtain ⟨htoken, rfl⟩ := advance_eq_some hrun
  have hstop := hs.stands.placed.stop
  have hmoves : Moves before s before (s.resumed s.next.stop s.next.rest) := moves_resumed (by omega) _
  refine ⟨⟨hs.stands.advanced htoken, ?_, ?_⟩, hmoves⟩
  · exact Nat.le_trans hs.le_start hmoves.start_le
  · exact hs.spans.mono hmoves.start_le

theorem spans_place {text : String} {start hi : Nat} (hspelled : Spelled source start text) (h : start < hi) :
    Spans source [place text start] start hi where
  within r hr := by
    obtain rfl := List.mem_singleton.mp hr
    exact ⟨text, start, rfl, Nat.le_refl _, h, hspelled⟩
  distinct := by simp [namesIn, place]
  sound c hc := by
    obtain rfl := List.mem_singleton.mp hc
    trivial

/-- A parser that has consumed a word stands behind its start. -/
theorem readsFrom_advance_word {text : String} (h : s.next.token = .word text) :
    ReadsFrom source s before advance fun _ => before ++ [place text s.next.start] := by
  intro lo a s' hs hrun
  obtain ⟨hs', hmoves⟩ := reads_advance source s lo a s' hs hrun
  obtain ⟨htoken, rfl⟩ := advance_eq_some hrun
  obtain ⟨hspelled, hlt⟩ := hs.stands.placed.word h
  have hlt' := Nat.lt_of_lt_of_le hlt (Lexeme.le_start_next s.next.stop s.next.rest)
  refine ⟨⟨hs'.stands, hs'.le_start, ?_⟩, hmoves.beside rfl⟩
  exact hs.spans.append (spans_place hspelled hlt') hs.le_start (Nat.le_of_lt hlt')

theorem reads_accept (f : Token → Option α) : Reads before (accept f) fun _ => before := by
  refine (reads_of_looks looks_peek).bind fun token => ?_
  split
  · exact reads_advance.bind fun _ => .pure .refl
  · exact reads_failure

theorem reads_mark (text : String) : Reads before (mark text) fun _ => before := by
  refine (reads_of_looks (looks_atMark text)).bind fun found => ?_
  split
  · exact reads_advance
  · exact reads_failure

theorem reads_word (text : String) : Reads before (word text) fun _ => before := by
  refine (reads_of_looks (looks_atWord text)).bind fun found => ?_
  split
  · exact reads_advance
  · exact reads_failure

theorem reads_mark? (text : String) : Reads before (mark? text) fun _ => before := by
  refine (reads_of_looks (looks_atMark text)).bind fun found => ?_
  split
  · exact reads_advance.bind fun _ => .pure .refl
  · exact .pure .refl

theorem reads_word? (text : String) : Reads before (word? text) fun _ => before := by
  refine (reads_of_looks (looks_atWord text)).bind fun found => ?_
  split
  · exact reads_advance.bind fun _ => .pure .refl
  · exact .pure .refl

/-- A word that is consumed stands at the place where the parser was. -/
theorem readsFrom_word (text : String) :
    ReadsFrom source s before (word text) fun _ => before ++ [place text s.next.start] := by
  intro lo a s' hs hrun
  obtain ⟨found, t, hat, hrun⟩ := bind_eq_some hrun
  obtain ⟨token, _, hpeek, hat⟩ := bind_eq_some hat
  cases hpeek
  obtain ⟨rfl, rfl⟩ := pure_eq_some hat
  split at hrun
  next htoken => exact readsFrom_advance_word (by simpa using htoken) lo a s' hs hrun
  next => cases hrun

/-- A name and the place it stands at. -/
theorem reads_name : Reads [] name fun r => [place r.1 r.2] := by
  refine .get fun source s => ?_
  intro lo a s' hs hrun
  obtain ⟨text, t, haccept, hrun⟩ := bind_eq_some hrun
  obtain ⟨rfl, rfl⟩ := pure_eq_some hrun
  obtain ⟨token, t, hpeek, hrun⟩ := bind_eq_some haccept
  cases hpeek
  cases htoken : s.next.token with
  | word text =>
    simp only [htoken] at hrun
    cases hreserved : reserved.contains text with
    | true =>
      simp only [hreserved] at hrun
      cases hrun
    | false =>
      simp only [hreserved] at hrun
      obtain ⟨_, _, hadvance, hrun⟩ := bind_eq_some hrun
      obtain ⟨rfl, rfl⟩ := pure_eq_some hrun
      exact readsFrom_advance_word htoken lo _ _ hs hadvance
  | _ =>
    simp only [htoken] at hrun
    cases hrun

theorem reads_identifier : Reads [] identifier fun ident => [tree ident] :=
  reads_name.bind fun _ => .pure .ident

end

/-! ## Comments and ends of statements -/

section

variable {α : Type} {before : List Content} {source : String} {s : State} {p : Parser α}

/-- Comments are no tokens: they may be moved about. -/
theorem readsFrom_set {after : List Content} {t : State}
    (hnext : { t.next with gap := [] } = { s.next with gap := [] }) (hmet : t.met = s.met)
    (hspans : ∀ lo hi, Spans source before lo hi → Spans source after lo hi) (hmoves : Moves before s after t) :
    ReadsFrom source s before (set t) fun _ => after := by
  intro lo a s' hs hrun
  cases hrun
  have hstart : t.next.start = s.next.start := (Lexeme.mk.inj hnext).2.2.1
  refine ⟨⟨hs.stands.congr hnext hmet, hstart.symm ▸ hs.le_start, ?_⟩, hmoves⟩
  rw [hstart]
  exact hspans _ _ hs.spans

/-- Comments stand nowhere. -/
theorem spans_remarks_iff {cs : List Content} {lo hi : Nat} (texts : List String) :
    Spans source (cs ++ [remarks texts]) lo hi ↔ Spans source cs lo hi := by
  have hnames : namesIn (cs ++ [remarks texts]) = namesIn cs := by simp [namesIn, remarks]
  constructor
  · intro h
    exact ⟨hnames ▸ h.within, hnames ▸ h.distinct, (List.forall_mem_append.mp h.sound).1⟩
  · intro h
    refine ⟨hnames ▸ h.within, hnames ▸ h.distinct, ?_⟩
    rw [List.forall_mem_append, List.forall_mem_singleton]
    exact ⟨h.sound, trivial⟩

/-- The comments in front of the look-ahead are read as such. -/
theorem reads_takeLead : Reads before takeLead fun lead => before ++ [remarks lead] := by
  refine .get fun source s => .via (fun _ => before ++ [remarks (commentsOf s.next.gap)]) ?_ fun _ => .pure .refl
  refine readsFrom_set rfl ?_ (fun _ _ => (spans_remarks_iff _).mpr) ⟨Nat.le_refl _, List.suffix_append _ _, fun hread => ?_⟩
  · simp [State.met, commentsOf]
  · refine ⟨(List.forall_mem_append.mp hread).1, ?_⟩
    simp only [commentsIn_append, commentsIn_singleton, remarks, List.perm_iff_count, List.count_append,
      List.count_reverse]
    intro text
    omega

theorem Behind.withLoose {lo : Nat} {cs : List Content} (h : Behind source lo cs s) (loose : List String) :
    Behind source lo cs { s with loose } :=
  ⟨h.stands.congr rfl rfl, h.le_start, h.spans⟩

/-- Comments that were read may be made loose. -/
theorem reads_loosen (texts : List String) :
    Reads (before ++ [remarks texts]) (modify fun s => { s with loose := texts.reverse ++ s.loose }) fun _ => before := by
  intro source s lo a s' hs hrun
  cases hrun
  refine ⟨⟨(hs.withLoose _).stands, hs.le_start, (spans_remarks_iff _).mp hs.spans⟩, Nat.le_refl _,
    List.suffix_refl _, fun hread => ⟨?_, ?_⟩⟩
  · rw [List.forall_mem_append, List.forall_mem_singleton]
    exact ⟨hread, trivial⟩
  · simp only [commentsIn_append, commentsIn_singleton, remarks, List.perm_iff_count, List.count_append,
      List.count_reverse]
    intro text
    omega

/-- The comments that a parser leaves loose are read together with what it reads. -/
theorem Reads.collectLoose {after : α → List Content} (h : Reads [] p after) :
    Reads [] (collectLoose p) fun r => after r.1 ++ [remarks r.2] := by
  intro source s lo r s' hs hrun
  obtain ⟨_, _, hget, hrun⟩ := bind_eq_some hrun
  cases hget
  obtain ⟨_, _, hmodify, hrun⟩ := bind_eq_some hrun
  cases hmodify
  obtain ⟨a, t, hp, hrun⟩ := bind_eq_some hrun
  obtain ⟨ht, hmoves⟩ := h source _ lo a t (hs.withLoose []) hp
  cases hrun
  refine ⟨⟨(ht.withLoose _).stands, ht.le_start, (spans_remarks_iff _).mpr ht.spans⟩, hmoves.start_le, hmoves.passed, ?_⟩
  intro hread
  have hperm := (hmoves.read (List.forall_mem_append.mp hread).1).2
  refine ⟨nofun, ?_⟩
  simp only [commentsIn_append, commentsIn_singleton, remarks, List.perm_iff_count, List.count_append,
    List.count_reverse, List.count_nil] at hperm ⊢
  intro text
  have hcount := hperm text
  omega

/-- A phrase that is left out of the tree leaves its comments. -/
theorem reads_leftOut {after : α → List Content} (h : Reads [] p after) : Reads [] (leftOut p) fun _ => [] := by
  intro source s lo r s' hs hrun
  obtain ⟨_, _, hget, hrun⟩ := bind_eq_some hrun
  cases hget
  obtain ⟨_, t, hdiscard, hrun⟩ := bind_eq_some hrun
  obtain ⟨⟨a, t⟩, hp, heq⟩ := Option.bind_eq_some_iff.mp hdiscard
  cases heq
  obtain ⟨ht, hmoves⟩ := h source s lo a t hs hp
  cases hrun
  refine ⟨⟨(ht.withLoose _).stands, ht.le_start, .nil⟩, hmoves.start_le, hmoves.passed, fun _ => ⟨nofun, ?_⟩⟩
  obtain ⟨new, hnew⟩ := hmoves.passed
  have htake : t.passed.take (t.passed.length - s.passed.length) = new := by
    rw [← hnew, List.length_append, Nat.add_sub_cancel, List.take_left]
  dsimp only
  rw [htake]
  simp only [← hnew, List.perm_iff_count, List.count_append]
  intro text
  omega

theorem reads_semicolon (afterExpression : Bool) :
    Reads before (semicolon afterExpression) fun _ => before := by
  refine .bind (reads_repeatFrom (fun _ => before) .refl fun _ => ?_) fun _ => .pure .refl
  refine .bind (reads_of_looks (looks_endsHere afterExpression)) fun ends => ?_
  split
  · exact .pure .refl
  · refine .get fun source s => ?_
    split
    next p ps hgap =>
      -- no comment stands before the first one
      have hcomments : commentsOf s.next.gap = p.comment?.toList ++ commentsOf ps := by
        rw [commentsOf, ← List.takeWhile_append_dropWhile (p := (·.comment?.isNone)) (l := s.next.gap), hgap,
          List.filterMap_append, List.filterMap_eq_nil_iff.mpr, List.nil_append, List.filterMap_cons]
        · cases p.comment? <;> rfl
        · intro q hq
          simpa using List.all_eq_true.mp List.all_takeWhile q hq
      refine .bind (readsFrom_set rfl ?_ (fun _ _ => id) ⟨Nat.le_refl _, List.suffix_append _ _, fun hread => ⟨hread, ?_⟩⟩)
        fun _ => .pure .refl
      · simp only [State.met, hcomments, List.reverse_append]
        cases p.comment? <;> simp
      · simp only [List.perm_iff_count, List.count_append]
        intro text
        omega
    · exact Reads.from (.bind (reads_mark ";") fun _ => .pure .refl)

/-- A phrase without a tree is not read. -/
theorem reads_unsupported {phrase : Parser Unit} (after : List Content) (what form : String)
    (h : Reads [] phrase fun _ => after) : Reads before (unsupported what form phrase) fun _ => [lost] := by
  refine .get fun source s => Reads.from (((h.frame before).gives fun _ => .lost).bind fun _ => ?_)
  exact (reads_of_looks (looks_snippetFrom _ _)).bind fun _ => .pure .refl

end

/-! ## Lists -/

section

variable {α : Type} {item : Parser α} {content : α → List Content}

theorem reads_elements (close : String) (h : Reads [] item content) :
    Reads [] (elements close item) fun found => found.flatMap (ifPresent content) := by
  refine .bind (reads_repeatFrom (fun acc => acc.flatMap (ifPresent content)) .refl fun acc => ?_)
    fun found => .pure (.of_perm (found.reverse_perm.symm.flatMap_right _))
  refine .bind (reads_mark? close) fun closed => ?_
  split
  · exact .pure .refl
  refine .bind (reads_mark? ",") fun absent => ?_
  split
  · exact .pure .refl
  refine .bind (h.frame _) fun x => ?_
  have hpush : Gives (acc.flatMap (ifPresent content) ++ content x)
      (content x ++ acc.flatMap (ifPresent content)) := .of_perm List.perm_append_comm
  refine .bind (reads_mark? ",") fun more => ?_
  split
  · exact .pure hpush
  · exact .bind (reads_mark close) fun _ => .pure hpush

theorem reads_items (close : String) (h : Reads [] item content) :
    Reads [] (items close item) fun found => found.flatMap content := by
  refine .bind (reads_elements close h) fun found => ?_
  refine .bind (reads_of_looks (looks_require _)) fun _ => .pure ?_
  rw [flatMap_ifPresent]
  exact .refl

end

end Unminify.Grammar
