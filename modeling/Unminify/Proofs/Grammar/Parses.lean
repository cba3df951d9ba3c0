import Mathlib.Data.List.TakeWhile
import Unminify.Grammar.Nonterminal
import Unminify.Proofs.Grammar.Lexing

/-!
# What parsers do in front of given tokens

`Parses ts p rest P` says that in front of the tokens `ts` a parser succeeds with a result of the kind `P`,
leaves the tokens `rest`, and makes no comment loose. `Refuses ts p` says that it fails there, which is as
much of a grammar in which later forms are tried only when earlier ones have failed.

There is one rule for each way in which parsers are put together, as there is for what they read
(`Reads`); but here a parser must be shown to succeed.
-/

namespace Unminify.Grammar.Parser

section

variable {α β σ : Type} {ts us vs : List Token} {P : α → Prop} {Q : β → Prop} {p q : Parser α}

/-- In front of some tokens, a parser succeeds and leaves the given others. -/
def Parses (ts : List Token) (p : Parser α) (rest : List Token) (P : α → Prop) : Prop :=
  ∀ s : State, s.next.Ahead ts →
    ∃ a s', p s = some (a, s') ∧ P a ∧ s'.next.Ahead rest ∧ s'.loose = s.loose

/-- In front of some tokens, a parser fails. -/
def Refuses (ts : List Token) (p : Parser α) : Prop := ∀ s : State, s.next.Ahead ts → p s = none

/-! ## Rules -/

theorem bind_of_some {p : Parser α} {f : α → Parser β} {s s' : State} {a : α} (h : p s = some (a, s')) :
    (p >>= f) s = f a s' := by
  show (p s).bind (fun r => f r.1 r.2) = _
  rw [h]
  rfl

theorem perhaps_eq (p : Parser α) (s : State) :
    perhaps p s = match p s with
      | some (a, s') => some (some a, s')
      | none => some (none, s) := by
  show ((p s).bind (fun r => some (some r.1, r.2)) <|> some (none, s)) = _
  cases p s <;> rfl

theorem foresees_eq (p : Parser α) (s : State) :
    foresees p s = (perhaps p >>= fun found => set s >>= fun _ => pure found.isSome) s := rfl

theorem collectLoose_eq (p : Parser α) (s : State) :
    collectLoose p s = (p >>= fun a => get >>= fun t => modify ({ · with loose := s.loose }) >>= fun _ =>
      pure (a, t.loose.reverse)) { s with loose := [] } := rfl

theorem advance_eq {s : State} (h : s.next.token ≠ .endOfInput ∧ s.next.token ≠ .unknown) :
    advance s = some ((), s.resumed s.next.stop s.next.rest) := by
  rw [advance, bind_of_some (rfl : (get : Parser State) s = some (s, s))]
  cases htoken : s.next.token with
  | endOfInput => exact absurd htoken h.1
  | unknown => exact absurd htoken h.2
  | _ => rfl

theorem Parses.imp {P' : α → Prop} (h : Parses ts p us P) (hP : ∀ a, P a → P' a) : Parses ts p us P' := by
  intro s hs
  obtain ⟨a, s', hrun, ha, hrest⟩ := h s hs
  exact ⟨a, s', hrun, hP a ha, hrest⟩

theorem Parses.pure {a : α} (h : P a) : Parses ts (pure a) ts P := fun s hs => ⟨a, s, rfl, h, hs, rfl⟩

theorem Parses.bind {f : α → Parser β} (h : Parses ts p us P) (hf : ∀ a, P a → Parses us (f a) vs Q) :
    Parses ts (p >>= f) vs Q := by
  intro s hs
  obtain ⟨a, t, hrun, ha, ht, hloose⟩ := h s hs
  obtain ⟨b, s', hrun', hb, hs', hloose'⟩ := hf a ha t ht
  exact ⟨b, s', (bind_of_some hrun).trans hrun', hb, hs', hloose'.trans hloose⟩

theorem Parses.via (us : List Token) (P : α → Prop) {f : α → Parser β} (h : Parses ts p us P)
    (hf : ∀ a, P a → Parses us (f a) vs Q) : Parses ts (p >>= f) vs Q := h.bind hf

theorem Parses.map {f : α → β} (h : Parses ts p us fun a => Q (f a)) : Parses ts (f <$> p) us Q := by
  rw [map_eq_pure_bind]
  exact h.bind fun a ha => .pure ha

theorem Parses.discard (h : Parses ts p us P) : Parses ts (discard p) us fun _ => True :=
  .map (h.imp fun _ _ => trivial)

theorem refuses_failure : Refuses ts (failure : Parser α) := fun _ _ => rfl

theorem Refuses.bind {f : α → Parser β} (h : Refuses ts p) : Refuses ts (p >>= f) := by
  intro s hs
  show (p s).bind (fun r => f r.1 r.2) = none
  rw [h s hs]
  rfl

theorem Refuses.map {f : α → β} (h : Refuses ts p) : Refuses ts (f <$> p) := by
  rw [map_eq_pure_bind]
  exact h.bind

/-- What follows a parser that succeeds may still fail. -/
theorem Parses.refuses {f : α → Parser β} (h : Parses ts p us P) (hf : ∀ a, P a → Refuses us (f a)) :
    Refuses ts (p >>= f) := by
  intro s hs
  obtain ⟨a, t, hrun, ha, ht, -⟩ := h s hs
  exact (bind_of_some hrun).trans (hf a ha t ht)

theorem Parses.orElse (h : Parses ts p us P) : Parses ts (p <|> q) us P := by
  intro s hs
  obtain ⟨a, s', hrun, hrest⟩ := h s hs
  refine ⟨a, s', ?_, hrest⟩
  show (p s <|> q s) = _
  rw [hrun]
  rfl

theorem Refuses.orElse (h : Refuses ts p) (hq : Parses ts q us P) : Parses ts (p <|> q) us P := by
  intro s hs
  obtain ⟨a, s', hrun, hrest⟩ := hq s hs
  refine ⟨a, s', ?_, hrest⟩
  show (p s <|> q s) = _
  rw [h s hs]
  exact hrun

theorem Refuses.or (h : Refuses ts p) (hq : Refuses ts q) : Refuses ts (p <|> q) := by
  intro s hs
  show (p s <|> q s) = _
  rw [h s hs]
  exact hq s hs

theorem refuses_foldr_orElse {f : β → Parser α} {xs : List β} (h : ∀ x ∈ xs, Refuses ts (f x)) :
    Refuses ts (xs.foldr (fun x other => f x <|> other) failure) := by
  induction xs with
  | nil => exact refuses_failure
  | cons x xs ih =>
    rw [List.forall_mem_cons] at h
    exact h.1.or (ih h.2)

/-- A parser may depend on the state, of which the tokens are known. -/
theorem Parses.get {f : State → Parser α} (h : ∀ s : State, s.next.Ahead ts → Parses ts (f s) us P) :
    Parses ts (get >>= f) us P := fun s hs => h s hs s hs

theorem Refuses.get {f : State → Parser α} (h : ∀ s : State, s.next.Ahead ts → Refuses ts (f s)) :
    Refuses ts (get >>= f) := fun s hs => h s hs s hs

theorem Parses.perhaps (h : Parses ts p us P) : Parses ts (perhaps p) us fun r => ∃ a, r = some a ∧ P a :=
  .orElse (.map (h.imp fun a ha => ⟨a, rfl, ha⟩))

theorem Refuses.perhaps (h : Refuses ts p) : Parses ts (perhaps p) ts fun r => r = none :=
  h.map.orElse (.pure rfl)

theorem Parses.foresees (h : Parses ts p us P) : Parses ts (foresees p) ts fun found => found = true := by
  intro s hs
  obtain ⟨_, t, hrun, ⟨a, rfl, -⟩, -⟩ := h.perhaps s hs
  refine ⟨true, s, ?_, rfl, hs, rfl⟩
  rw [foresees_eq, bind_of_some hrun]
  rfl

theorem Refuses.foresees (h : Refuses ts p) : Parses ts (foresees p) ts fun found => found = false := by
  intro s hs
  obtain ⟨_, t, hrun, rfl, -⟩ := h.perhaps s hs
  refine ⟨false, s, ?_, rfl, hs, rfl⟩
  rw [foresees_eq, bind_of_some hrun]
  rfl

/-- Looking ahead always succeeds. -/
theorem parses_foresees : Parses ts (foresees p) ts fun _ => True := by
  intro s hs
  cases hrun : p s with
  | none =>
    refine ⟨false, s, ?_, trivial, hs, rfl⟩
    rw [foresees_eq, bind_of_some (show perhaps p s = some (none, s) by rw [perhaps_eq, hrun])]
    rfl
  | some r =>
    refine ⟨true, s, ?_, trivial, hs, rfl⟩
    rw [foresees_eq, bind_of_some (show perhaps p s = some (some r.1, r.2) by rw [perhaps_eq, hrun])]
    rfl

theorem parses_require {condition : Bool} (h : condition = true) :
    Parses ts (require condition) ts fun _ => True := by
  rw [require, if_pos h]
  exact .pure trivial

theorem refuses_require {condition : Bool} (h : condition = false) : Refuses ts (require condition) := by
  rw [require, if_neg (by simp [h])]
  exact refuses_failure

/-- A condition that may hold or not does no harm in front of what fails. -/
theorem Refuses.require {condition : Bool} {f : Unit → Parser α} (h : Refuses ts (f ())) :
    Refuses ts (require condition >>= f) := by
  cases condition with
  | true => exact (parses_require rfl).refuses fun _ _ => h
  | false => exact (refuses_require rfl).bind

/-- A loop that ends in its first round. -/
theorem Parses.once {step : σ → Parser (σ × Bool)} {init : σ} {R : σ → Prop}
    (h : Parses ts (step init) us fun r => r.2 = false ∧ R r.1) :
    Parses ts (repeatFrom init step) us R := by
  refine .get fun _ _ => .bind h ?_
  rintro ⟨x, _⟩ ⟨rfl, hx⟩
  exact .pure hx

/-- A loop has a round for each of the tokens, and two more. -/
theorem Parses.repeatFrom {step : σ → Parser (σ × Bool)} {init : σ} {R : σ → Prop}
    (h : ∀ n, ts.length + 2 ≤ n → Parses ts (loop step n init) us R) :
    Parses ts (repeatFrom init step) us R :=
  .get fun _ hs => h _ (Nat.add_le_add_right hs.length_le 2)

theorem Refuses.repeatFrom {step : σ → Parser (σ × Bool)} {init : σ} (h : Refuses ts (step init)) :
    Refuses ts (repeatFrom init step) :=
  .get fun _ _ => h.bind

end

/-! ## Tokens -/

section

variable {α : Type} {t : Token} {ts us : List Token} {text : String} {P : α → Prop}

theorem parses_peek : Parses ts peek ts fun t => t = ts.headD .endOfInput :=
  fun s hs => ⟨s.next.token, s, rfl, hs.token_eq, hs, rfl⟩

theorem Parses.peek {f : Token → Parser α} (h : Parses ts (f (ts.headD .endOfInput)) us P) :
    Parses ts (peek >>= f) us P := parses_peek.bind fun _ ht => ht ▸ h

theorem Refuses.peek {f : Token → Parser α} (h : Refuses ts (f (ts.headD .endOfInput))) :
    Refuses ts (peek >>= f) := parses_peek.refuses fun _ ht => ht ▸ h

theorem parses_advance (ht : t ≠ .endOfInput ∧ t ≠ .unknown) : Parses (t :: ts) advance ts fun _ => True := by
  intro s hs
  obtain ⟨htoken, hrest⟩ := hs.uncons
  refine ⟨(), s.resumed s.next.stop s.next.rest, ?_, trivial, hrest.ahead_next _, ?_⟩
  · exact advance_eq (htoken ▸ ht)
  · rw [State.resumed, hs.commentless]
    rfl

theorem parses_atMark : Parses ts (atMark text) ts fun found => found = (ts.headD .endOfInput == .mark text) :=
  .bind parses_peek fun _ h => .pure (h ▸ rfl)

theorem parses_atWord : Parses ts (atWord text) ts fun found => found = (ts.headD .endOfInput == .word text) :=
  .bind parses_peek fun _ h => .pure (h ▸ rfl)

theorem parses_mark : Parses (.mark text :: ts) (mark text) ts fun _ => True := by
  refine .bind parses_atMark ?_
  rintro _ rfl
  rw [List.headD_cons, if_pos (beq_self_eq_true _)]
  exact parses_advance ⟨nofun, nofun⟩

theorem refuses_mark (h : ts.headD .endOfInput ≠ .mark text) : Refuses ts (mark text) := by
  refine parses_atMark.refuses ?_
  rintro _ rfl
  rw [if_neg (h ∘ eq_of_beq)]
  exact refuses_failure

theorem parses_word : Parses (.word text :: ts) (word text) ts fun _ => True := by
  refine .bind parses_atWord ?_
  rintro _ rfl
  rw [List.headD_cons, if_pos (beq_self_eq_true _)]
  exact parses_advance ⟨nofun, nofun⟩

theorem refuses_word (h : ts.headD .endOfInput ≠ .word text) : Refuses ts (word text) := by
  refine parses_atWord.refuses ?_
  rintro _ rfl
  rw [if_neg (h ∘ eq_of_beq)]
  exact refuses_failure

theorem parses_mark? : Parses (.mark text :: ts) (mark? text) ts fun found => found = true := by
  refine .bind parses_atMark ?_
  rintro _ rfl
  rw [List.headD_cons, if_pos (beq_self_eq_true _)]
  exact .bind (parses_advance ⟨nofun, nofun⟩) fun _ _ => .pure rfl

theorem absent_mark? (h : ts.headD .endOfInput ≠ .mark text) :
    Parses ts (mark? text) ts fun found => found = false := by
  refine .bind parses_atMark ?_
  rintro _ rfl
  rw [if_neg (h ∘ eq_of_beq)]
  exact .pure rfl

theorem parses_word? : Parses (.word text :: ts) (word? text) ts fun found => found = true := by
  refine .bind parses_atWord ?_
  rintro _ rfl
  rw [List.headD_cons, if_pos (beq_self_eq_true _)]
  exact .bind (parses_advance ⟨nofun, nofun⟩) fun _ _ => .pure rfl

theorem absent_word? (h : ts.headD .endOfInput ≠ .word text) :
    Parses ts (word? text) ts fun found => found = false := by
  refine .bind parses_atWord ?_
  rintro _ rfl
  rw [if_neg (h ∘ eq_of_beq)]
  exact .pure rfl

theorem parses_accept {f : Token → Option α} {a : α} (ht : t ≠ .endOfInput ∧ t ≠ .unknown) (h : f t = some a) :
    Parses (t :: ts) (accept f) ts fun r => r = a := by
  refine .peek ?_
  rw [List.headD_cons, h]
  exact .bind (parses_advance ht) fun _ _ => .pure rfl

theorem refuses_accept {f : Token → Option α} (h : f (ts.headD .endOfInput) = none) : Refuses ts (accept f) := by
  refine .peek ?_
  rw [h]
  exact refuses_failure

theorem parses_name (h : reserved.contains text = false) :
    Parses (.word text :: ts) name ts fun r => r.1 = text := by
  refine .get fun _ _ => .bind (parses_accept (a := text) ⟨nofun, nofun⟩ ?_) fun _ hfound => .pure hfound
  simp only [h, Bool.false_eq_true, if_false]

theorem refuses_name (h : ∀ text, ts.headD .endOfInput = .word text → reserved.contains text = true) :
    Refuses ts name := by
  refine .get fun s _ => .bind (refuses_accept ?_)
  cases hhead : ts.headD .endOfInput with
  | word text => simp only [h text hhead, if_true]
  | _ => rfl

theorem parses_identifier (h : reserved.contains text = false) :
    Parses (.word text :: ts) identifier ts fun ident => ∃ id, ident = .ident text id := by
  refine .bind (parses_name h) ?_
  rintro ⟨_, start⟩ rfl
  exact .pure ⟨_, rfl⟩

theorem refuses_identifier (h : ∀ text, ts.headD .endOfInput = .word text → reserved.contains text = true) :
    Refuses ts identifier := (refuses_name h).bind

end

/-! ## Comments and semicolons -/

section

variable {α : Type} {t : Token} {ts us : List Token} {P : α → Prop} {p : Parser α}

theorem parses_takeLead : Parses ts takeLead ts fun lead => lead = [] := by
  intro s hs
  refine ⟨_, _, rfl, hs.commentless, ⟨rfl, hs.token, hs.starts, hs.lexes⟩, rfl⟩

/-- There are no comments to take. -/
theorem Parses.takeLead {f : List String → Parser α} (h : Parses ts (f []) us P) :
    Parses ts (takeLead >>= f) us P := parses_takeLead.bind fun _ hlead => hlead ▸ h

theorem Parses.collectLoose (h : Parses ts p us P) :
    Parses ts (collectLoose p) us fun r => P r.1 ∧ r.2 = [] := by
  intro s hs
  obtain ⟨a, t, hrun, ha, ht, hloose⟩ := h { s with loose := [] } hs
  refine ⟨(a, []), { t with loose := s.loose }, ?_, ⟨ha, rfl⟩, ht, rfl⟩
  have hrun' : p { s with loose := [] } = some (a, { t with loose := [] }) := by
    rw [hrun, ← show t.loose = [] from hloose]
  rw [collectLoose_eq, bind_of_some hrun']
  rfl

variable {text : String} {cs : List Char}

/-- Across blanks, no semicolon is supplied in front of a mark that starts no line. -/
theorem suppliesWithin_of_blanks {afterExpression : Bool} {c : Char} {gap : List Piece} {n : Nat}
    (hgap : commentsOf gap = []) (hc : mayStartLine (c :: cs) = false ∧ c ≠ '\x7d') :
    suppliesWithin afterExpression (c :: cs) n gap = false := by
  induction n generalizing gap with
  | zero => rfl
  | succ n ih =>
    cases gap with
    | nil => simp [suppliesWithin, hc.2]
    | cons piece gap =>
      cases piece with
      | blank broken =>
        cases broken with
        | true => exact hc.1
        | false => exact ih hgap
      | lineComment text => cases hgap
      | blockComment text broken => cases hgap

/-- In front of a written semicolon, none is supplied. -/
theorem absent_endsHere {afterExpression : Bool} :
    Parses (.mark ";" :: ts) (endsHere afterExpression) (.mark ";" :: ts) fun ends => ends = false := by
  refine .get fun s hs => .pure ?_
  rw [hs.here_eq nofun]
  exact Bool.and_eq_false_iff.mpr (.inr (suppliesWithin_of_blanks hs.commentless ⟨rfl, by decide⟩))

theorem parses_atSemicolon {afterExpression : Bool} :
    Parses ts (atSemicolon afterExpression) ts fun _ => True :=
  .get fun _ _ => .pure trivial

/-- A written semicolon ends a statement. -/
theorem parses_semicolon (afterExpression : Bool) :
    Parses (.mark ";" :: ts) (semicolon afterExpression) ts fun ended => ended = true := by
  refine .via ts (fun ended => ended = some true) (.once ?_) ?_
  · refine .bind (absent_endsHere) ?_
    rintro _ rfl
    refine .get fun s hs => ?_
    have hgap : s.next.gap.dropWhile (·.comment?.isNone) = [] := by
      rw [List.dropWhile_eq_nil_iff]
      simpa [commentsOf] using hs.commentless
    rw [hgap]
    exact .bind parses_mark fun _ _ => .pure ⟨rfl, rfl⟩
  · rintro _ rfl
    exact .pure rfl

end

end Unminify.Grammar.Parser
