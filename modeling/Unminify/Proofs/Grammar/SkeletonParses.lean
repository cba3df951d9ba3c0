import Unminify.Proofs.Grammar.BlockBraces
import Unminify.Proofs.Grammar.Sources

/-!
# Skeletons are parsed as they are braced

In front of the tokens of a skeleton, a statement is parsed that is the braced skeleton up to positions
(`parses_skeleton`). By induction on the skeleton, for whatever follows it: only an `else` may not, if the
skeleton ends in an `if` without one.
-/

namespace Unminify.Grammar

open Unminify.Grammar.Parser

/-- A reading of a tree up to positions. -/
def IsCopy {c : Category} (u : Tree c) (r : Reading (Tree c)) : Prop := ∃ v, r = .ok v ∧ v.same u = true

theorem IsName.copy {text : String} {r : Reading Expr} (h : IsName text r) (id : Option Nat) :
    IsCopy (.identExpr (.ident text id)) r := by
  obtain ⟨id', rfl⟩ := h
  exact ⟨_, rfl, beq_self_eq_true text⟩

section

variable {rules : Rules} {text : String} {t : Token} {ts us : List Token} {n : Nat} {id : Option Nat}

theorem parses_condition (h : IsIdentifier text) :
    Parses (.mark "(" :: .word text :: .mark ")" :: ts) (condition (grammar (n + 4))) ts (IsName text) := by
  refine .bind parses_mark fun _ _ => ?_
  refine .bind (parses_grammar_expressions .parenthesis (parses_operand h .parenthesis)) fun e he => ?_
  exact .bind parses_mark fun _ _ => .pure he

theorem parses_body {u : Stmt} (h : Parses us (rules .statement) ts fun r => IsCopy u r.reading) :
    Parses us (body rules) ts (IsCopy (.body u)) := by
  have hbody {r : Reading Stmt} (hr : IsCopy u r) : IsCopy (.body u) (Tree.body <$> r) := by
    obtain ⟨v, rfl, hv⟩ := hr
    exact ⟨_, rfl, Tree.same_iff.mpr ⟨rfl, .cons hv .nil⟩⟩
  refine .takeLead ?_
  refine .bind h.collectLoose ?_
  rintro ⟨s, _⟩ ⟨hs, rfl⟩
  dsimp only
  split
  · exact .via ts (fun _ => True) (fun s hs => ⟨(), _, rfl, trivial, hs, rfl⟩) fun _ _ => .pure (hbody hs)
  · exact .pure (hbody hs)

/-! ## Simple statements -/

theorem parses_expressionStatement (h : Parses us (rules (.expressions .final)) (.mark ";" :: ts) (IsName text)) :
    Parses us (expressionStatement rules) ts
      fun r => IsCopy (.exprStmt (.identExpr (.ident text id))) r.reading := by
  refine h.bind fun e he => .bind (parses_semicolon true) fun _ _ => .pure ?_
  obtain ⟨v, hv, hsame⟩ := he.copy id
  subst hv
  exact ⟨_, rfl, Tree.same_iff.mpr ⟨rfl, .cons hsame .nil⟩⟩

theorem IsIdentifier.ne {word : String} (h : IsIdentifier text) (hword : ¬ IsIdentifier word) : text ≠ word :=
  fun heq => hword (heq ▸ h)

/-- A name in front of a stop declares nothing. -/
theorem absent_atDeclaration (h : IsIdentifier text) (ht : t.Stops) :
    Parses (.word text :: t :: ts) atDeclaration (.word text :: t :: ts) fun found => found = false := by
  refine Refuses.foresees (Parses.refuses (absent_word? ?_) ?_)
  · simpa using IsIdentifier.ne h (by decide)
  rintro _ rfl
  by_cases hasync : text = "async"
  · subst hasync
    refine parses_word?.refuses ?_
    rintro _ rfl
    refine parses_atSemicolon.refuses fun _ _ => .require ?_
    exact .bind (refuses_word ht.ne_word)
  · refine Parses.refuses (absent_word? (by simpa using hasync)) ?_
    rintro _ rfl
    exact .bind (refuses_word (by simpa using IsIdentifier.ne h (by decide)))

theorem refuses_unsupported {what form : String} {phrase : Parser Unit} (h : Refuses us phrase) :
    Refuses us (unsupported what form phrase) := .get fun _ _ => h.bind

theorem refuses_declaredTarget : Refuses (.mark ";" :: ts) (declaredTarget rules) := by
  refine .or (.or (.bind (refuses_mark (by simp))) (.bind (refuses_mark (by simp)))) ?_
  exact .bind (refuses_identifier (by simp))

theorem refuses_declaration (mayEnd : Bool) :
    Refuses (.word "let" :: .mark ";" :: ts) (declaration rules mayEnd) := by
  refine .bind (.peek (Parses.refuses (parses_advance (t := .word "let") (by simp)) fun _ _ => ?_))
  cases mayEnd with
  | false => exact .peek (refuses_require rfl).bind
  | true => exact parses_atSemicolon.refuses fun _ _ => .require (.peek (refuses_require rfl).bind)

theorem refuses_declaration_semicolon (mayEnd : Bool) : Refuses (.mark ";" :: ts) (declaration rules mayEnd) := by
  refine .bind (.peek ?_)
  exact refuses_failure

theorem refuses_namedDeclaration : Refuses (.mark ";" :: ts) (namedDeclaration rules) := by
  refine Parses.refuses (absent_decorators (by simp)) fun _ _ => Parses.refuses (Refuses.foresees ?_) ?_
  · refine Parses.refuses (absent_word? (by simp)) ?_
    rintro _ rfl
    refine Parses.refuses (absent_word? (by simp)) ?_
    rintro _ rfl
    exact .bind (refuses_word (by simp))
  · rintro _ rfl
    exact (refuses_require rfl).bind

theorem refuses_exportStatement : Refuses (.word "export" :: .mark ";" :: ts) (exportStatement rules) := by
  refine .bind (refuses_unsupported (Parses.refuses (absent_decorators (by simp)) fun _ _ => ?_))
  refine parses_word.refuses fun _ _ => .or ?_ (.or ?_ ?_)
  · refine parses_atMark.refuses fun _ _ => .bind (.or ?_ ?_)
    · exact .bind (refuses_mark (by simp))
    · exact .bind (refuses_mark (by simp))
  · exact .or refuses_namedDeclaration.map (refuses_declaration_semicolon true).map
  · exact .bind (refuses_word (by simp))

/-- A name in front of a semicolon is no statement of its own kind. -/
theorem refuses_wordStatement (h : IsIdentifier text) :
    Refuses (.word text :: .mark ";" :: ts) (wordStatement rules text) := by
  unfold wordStatement
  split
  case h_13 => exact (refuses_declaration true).bind
  case h_15 =>
    refine .bind (refuses_unsupported (Parses.refuses (.discard (absent_word? (by simp))) fun _ _ => ?_))
    refine parses_word.refuses fun _ _ => parses_atSemicolon.refuses fun _ _ => .require ?_
    exact .bind (.bind (.bind refuses_declaredTarget))
  case h_16 =>
    refine .bind (refuses_unsupported (Parses.refuses (.discard parses_word?) fun _ _ => ?_))
    exact .bind (refuses_word (by simp))
  case h_19 => exact refuses_exportStatement
  case h_20 => exact refuses_failure
  all_goals exact absurd h (by decide)

/-- A name in front of a semicolon is an expression statement. -/
theorem parses_name_statement (h : IsIdentifier text) :
    Parses (.word text :: .mark ";" :: ts) (statement (grammar (n + 4))) ts
      fun r => IsCopy (.exprStmt (.identExpr (.ident text id))) r.reading := by
  have hexpression : Parses (.word text :: .mark ";" :: ts) (expressionStatement (grammar (n + 4))) ts
      fun r => IsCopy (.exprStmt (.identExpr (.ident text id))) r.reading :=
    parses_expressionStatement (parses_grammar_expressions .semicolon (parses_operand h .semicolon))
  refine .peek ?_
  dsimp only [List.headD_cons]
  rw [h.2.1, Bool.false_and, if_neg Bool.false_ne_true]
  refine .bind (absent_atDeclaration h .semicolon) ?_
  rintro _ rfl
  rw [if_neg Bool.false_ne_true]
  refine .bind (Refuses.foresees ((parses_name h.2.1).discard.refuses fun _ _ => refuses_mark (by simp))) ?_
  rintro _ rfl
  rw [if_neg Bool.false_ne_true]
  exact (refuses_wordStatement h).bind.orElse hexpression

/-- So is a name in parentheses. -/
theorem parses_parenthesized_statement (h : IsIdentifier text) :
    Parses (.mark "(" :: .word text :: .mark ")" :: .mark ";" :: ts) (statement (grammar (n + 8))) ts
      fun r => IsCopy (.exprStmt (.identExpr (.ident text id))) r.reading := by
  refine .peek ?_
  refine Refuses.orElse (.bind (.get fun _ _ => ?_)) (parses_expressionStatement ?_)
  · have hahead {ts : List Token} {text : String} (htext : text ∈ ["<!--", "-->"]) :
        Parses (.mark "(" :: ts) (Markup.ahead text) (.mark "(" :: ts) fun found => found = false := by
      refine .get fun s hs => .pure ?_
      simp only [List.mem_cons, List.not_mem_nil, or_false] at htext
      rw [hs.here_eq (by simp)]
      rcases htext with rfl | rfl <;> rfl
    refine (hahead (by simp)).refuses ?_
    rintro _ rfl
    refine (hahead (by simp)).refuses ?_
    rintro _ rfl
    exact (refuses_require rfl).bind
  · exact parses_grammar_expressions .semicolon (parses_operand_parenthesized h .semicolon)

theorem parses_labeledStatement {u : Stmt} (h : IsIdentifier text)
    (hu : Parses us (grammar n .statement) ts fun r => IsCopy u r.reading) :
    Parses (.word text :: .mark ":" :: us) (statement (grammar n)) ts
      fun r => IsCopy (.labeled text (.body u)) r.reading := by
  refine .peek ?_
  dsimp only [List.headD_cons]
  rw [h.2.1, Bool.false_and, if_neg Bool.false_ne_true]
  refine .bind (absent_atDeclaration h .colon) ?_
  rintro _ rfl
  rw [if_neg Bool.false_ne_true]
  refine .bind (Parses.foresees ((parses_name h.2.1).discard.bind fun _ _ => parses_mark)) ?_
  rintro _ rfl
  rw [if_pos rfl]
  refine .via ts (IsCopy (.labeled text (.body u))) (.bind (parses_name h.2.1) ?_) fun r hr => .pure hr
  rintro ⟨_, start⟩ rfl
  refine .bind parses_mark fun _ _ => (parses_body hu).bind fun r hr => .pure ?_
  obtain ⟨v, rfl, hv⟩ := hr
  exact ⟨_, rfl, Tree.same_iff.mpr ⟨by simp [Tree.sameForm_iff, Tree.scalars, sameScalars, Scalar.same, Tree.ctorIdx], .cons hv .nil⟩⟩

/-! ## Statements with a keyword -/

section

variable {u v : Stmt}

theorem parses_keyword {w : String} {P : Reading Stmt → Prop}
    (hw : (reserved.contains w && !expressionWords.contains w) = true)
    (h : Parses (.word w :: us) (wordStatement rules w) ts P) :
    Parses (.word w :: us) (statement rules) ts fun r => P r.reading := by
  refine .peek ?_
  dsimp only [List.headD_cons]
  rw [if_pos hw]
  exact h.bind fun r hr => .pure hr

theorem parses_whileLoop (h : IsIdentifier text)
    (hu : Parses us (grammar (n + 4) .statement) ts fun r => IsCopy u r.reading) :
    Parses (.word "while" :: .mark "(" :: .word text :: .mark ")" :: us) (statement (grammar (n + 4))) ts
      fun r => IsCopy (.whileStmt (.identExpr (.ident text id)) (.body u)) r.reading := by
  refine parses_keyword (by decide) (.bind parses_word fun _ _ => .bind (parses_condition h) fun test htest => ?_)
  refine (parses_body hu).bind fun inner hinner => .pure ?_
  obtain ⟨e, rfl, he⟩ := htest.copy id
  obtain ⟨b, rfl, hb⟩ := hinner
  exact ⟨_, rfl, Tree.same_iff.mpr ⟨rfl, .cons he (.cons hb .nil)⟩⟩

theorem parses_doLoop (h : IsIdentifier text)
    (hu : Parses us (grammar (n + 4) .statement)
      (.word "while" :: .mark "(" :: .word text :: .mark ")" :: .mark ";" :: ts) fun r => IsCopy u r.reading) :
    Parses (.word "do" :: us) (statement (grammar (n + 4))) ts
      fun r => IsCopy (.doWhile (.identExpr (.ident text id)) (.body u)) r.reading := by
  refine parses_keyword (by decide) (.bind parses_word fun _ _ => (parses_body hu).bind fun inner hinner => ?_)
  refine .bind parses_word fun _ _ => .bind (parses_condition h) fun test htest => ?_
  refine .bind (.discard (.perhaps (parses_semicolon false))) fun _ _ => .pure ?_
  obtain ⟨e, rfl, he⟩ := htest.copy id
  obtain ⟨b, rfl, hb⟩ := hinner
  exact ⟨_, rfl, Tree.same_iff.mpr ⟨rfl, .cons he (.cons hb .nil)⟩⟩

theorem parses_ifStatement (h : IsIdentifier text)
    (hu : Parses us (grammar (n + 4) .statement) ts fun r => IsCopy u r.reading)
    (helse : ts.headD .endOfInput ≠ .word "else") :
    Parses (.word "if" :: .mark "(" :: .word text :: .mark ")" :: us) (statement (grammar (n + 4))) ts
      fun r => IsCopy (.ifStmt (.identExpr (.ident text id)) (.body u) .none) r.reading := by
  refine parses_keyword (by decide) (.bind parses_word fun _ _ => .bind (parses_condition h) fun test htest => ?_)
  refine (parses_body hu).bind fun consequent hconsequent => .bind (absent_word? helse) ?_
  rintro _ rfl
  refine .pure ?_
  obtain ⟨e, rfl, he⟩ := htest.copy id
  obtain ⟨b, rfl, hb⟩ := hconsequent
  exact ⟨_, rfl, Tree.same_iff.mpr ⟨rfl, .cons he (.cons hb (.cons rfl .nil))⟩⟩

theorem parses_ifElse {vs : List Token} (h : IsIdentifier text)
    (hu : Parses us (grammar (n + 4) .statement) (.word "else" :: vs) fun r => IsCopy u r.reading)
    (hv : Parses vs (grammar (n + 4) .statement) ts fun r => IsCopy v r.reading) :
    Parses (.word "if" :: .mark "(" :: .word text :: .mark ")" :: us) (statement (grammar (n + 4))) ts
      fun r => IsCopy (.ifStmt (.identExpr (.ident text id)) (.body u) (.some (.body v))) r.reading := by
  refine parses_keyword (by decide) (.bind parses_word fun _ _ => .bind (parses_condition h) fun test htest => ?_)
  refine (parses_body hu).bind fun consequent hconsequent => .bind parses_word? ?_
  rintro _ rfl
  refine (parses_body hv).bind fun alternate halternate => .pure ?_
  obtain ⟨e, rfl, he⟩ := htest.copy id
  obtain ⟨b, rfl, hb⟩ := hconsequent
  obtain ⟨a, rfl, ha⟩ := halternate
  exact ⟨_, rfl, Tree.same_iff.mpr ⟨rfl, .cons he (.cons hb (.cons (Tree.same_iff.mpr ⟨rfl, .cons ha .nil⟩) .nil))⟩⟩

/-- A semicolon is not what a loop goes through. -/
theorem refuses_iterationHead : Refuses (.mark ";" :: ts) (iterationHead rules) := by
  have hword {w : String} : Refuses (.mark ";" :: ts) (word w) := refuses_word (by simp)
  have hdestructuring : Refuses (.mark ";" :: ts) (destructuring rules) :=
    .or (.bind (refuses_mark (by simp))) (.bind (refuses_mark (by simp)))
  have hprimary : Refuses (.mark ";" :: ts) (primary rules .enclosed failure) := by
    refine .peek ?_
    exact refuses_failure
  have hplain : Refuses (.mark ";" :: ts) (plainTarget rules) := by
    refine .get fun s _ => .bind (.peek ?_)
    exact hprimary
  refine .or (.bind (.bind hword)) (.or (.bind (.bind hword)) (.or (.bind (.bind hword)) (.or ?_ (.or ?_ ?_))))
  · exact .bind (.bind hword)
  · exact .bind (.bind (.or (.bind hdestructuring) hplain))
  · exact .bind (.bind (.bind (refuses_mark (by simp))))

theorem parses_forever (hu : Parses us (rules .statement) ts fun r => IsCopy u r.reading) :
    Parses (.word "for" :: .mark "(" :: .mark ";" :: .mark ";" :: .mark ")" :: us) (statement rules) ts
      fun r => IsCopy (.forStmt .none .none .none (.body u)) r.reading := by
  have hclause {close : String} {ts : List Token} :
      Parses (.mark close :: ts) (clause rules close) ts fun r => r = .ok .none := by
    refine .bind parses_mark? ?_
    rintro _ rfl
    exact .pure rfl
  refine parses_keyword (by decide) (Refuses.orElse ?_ ?_)
  · refine parses_word.refuses fun _ _ => Parses.refuses (absent_word? (by simp)) ?_
    rintro _ rfl
    exact parses_mark.refuses fun _ _ => .bind refuses_iterationHead
  · refine .bind parses_word fun _ _ => .bind parses_mark fun _ _ => ?_
    refine .via (.mark ";" :: .mark ")" :: us) (fun r => r = .ok .none) (Refuses.orElse (.bind (refuses_declaration_semicolon false)) ?_) ?_
    · refine .bind hclause ?_
      rintro _ rfl
      exact .pure rfl
    rintro _ rfl
    refine .bind hclause ?_
    rintro _ rfl
    refine .bind hclause ?_
    rintro _ rfl
    refine (parses_body hu).bind fun inner hinner => .pure ?_
    obtain ⟨b, rfl, hb⟩ := hinner
    exact ⟨_, rfl, Tree.same_iff.mpr ⟨rfl, .cons rfl (.cons rfl (.cons rfl (.cons hb .nil)))⟩⟩

end

end

/-! ## Blocks -/

/-- No statement begins with a token that ends a list of statements, with the rest of a branch, or with
what is no token. -/
def notFirst : List Token := [.mark "\x7d", .endOfInput, .word "else", .unknown]

theorem Begins.head {us : List Token} (h : Begins us) : us.headD .endOfInput ∉ notFirst := by
  cases h with
  | semicolon => simp [notFirst]
  | keyword hw =>
    simp only [List.mem_cons, List.not_mem_nil, or_false] at hw
    rcases hw with rfl | rfl | rfl | rfl <;> simp [notFirst]
  | name h => simpa [notFirst] using IsIdentifier.ne h (by decide)
  | parenthesized h => simp [notFirst]
  | label h _ => simpa [notFirst] using IsIdentifier.ne h (by decide)

/-- A skeleton that is no block begins like a statement. -/
theorem begins_tokens {s : Stmt} (h : s.Skeleton) (hblock : ∀ inner, s ≠ .blockStmt inner)
    (ts : List Token) : Begins (s.tokens ++ ts) := by
  induction h with
  | exprStmt h =>
    simp only [Tree.tokens]
    split
    · exact .parenthesized h
    · exact .name h
  | emptyStmt => exact .semicolon
  | blockStmt _ => exact absurd rfl (hblock _)
  | ifStmt _ _ | ifElse _ _ _ | whileStmt _ _ | doWhile _ _ | forStmt _ => exact .keyword (by decide)
  | labeled h _ hinner ih => exact .label h (ih hinner)

theorem head_tokens {s : Stmt} (h : s.Skeleton) {t : Token} (ht : t ∈ notFirst) (ts : List Token) :
    (s.tokens ++ ts).headD .endOfInput ≠ t := by
  have hhead : (s.tokens ++ ts).headD .endOfInput ∉ notFirst := by
    cases s with
    | blockStmt inner => simp [Tree.tokens, notFirst]
    | _ => exact (begins_tokens h (by simp) ts).head
  rintro rfl
  exact hhead ht

/-- Behind some of the statements of a list, no token stands that could not stand behind all of them. -/
theorem head_flatMap_tokens {ss : List Stmt} (h : ∀ s ∈ ss, s.Skeleton) {us : List Token} {t : Token}
    (ht : t ∈ notFirst) (hus : us.headD .endOfInput ≠ t) :
    (ss.flatMap Tree.tokens ++ us).headD .endOfInput ≠ t := by
  cases ss with
  | nil => exact hus
  | cons s ss =>
    rw [List.flatMap_cons, List.append_assoc]
    exact head_tokens (h s List.mem_cons_self) ht _

theorem length_le_tokens {ss : List Stmt} (h : ∀ s ∈ ss, s.Skeleton) :
    ss.length ≤ (ss.flatMap Tree.tokens).length := by
  induction ss with
  | nil => exact Nat.le_refl _
  | cons s ss ih =>
    rw [List.forall_mem_cons] at h
    have hpos : 0 < s.tokens.length := by
      cases h.1 <;> simp only [Tree.tokens, List.length_cons, List.length_append] <;> omega
    have hrest := ih h.2
    rw [List.flatMap_cons, List.length_append, List.length_cons]
    omega

theorem length_tokens_le {s : Stmt} {ss : List Stmt} (hs : s ∈ ss) :
    s.tokens.length ≤ (ss.flatMap Tree.tokens).length :=
  (List.sublist_flatten_of_mem (List.mem_map_of_mem hs)).length_le

theorem readAll_ok {α : Type} (xs : List α) : readAll (xs.map .ok) = .ok xs := by
  induction xs with
  | nil => rfl
  | cons x xs ih =>
    rw [readAll, List.map_cons, List.mapM_cons]
    rw [readAll] at ih
    rw [ih]
    rfl

theorem same_blockOf {us vs : List Stmt} (h : List.Forall₂ (fun v u => v.same u = true) vs us) :
    (Tree.blockOf vs).same (.blockOf us) = true := by
  refine Tree.same_iff.mpr ⟨rfl, .cons ?_ .nil⟩
  induction h with
  | nil => rfl
  | cons hv _ ih => exact Tree.same_iff.mpr ⟨rfl, .cons hv (.cons ih .nil)⟩

section

variable {rules : Rules} {ts : List Token} {ss : List Stmt}

/-- A statement is parsed as another one, whatever follows it but an `else`. -/
def ParsesAs (rules : Rules) (s u : Stmt) : Prop :=
  ∀ ts : List Token, ts.headD .endOfInput ≠ .word "else" →
    Parses (s.tokens ++ ts) (rules .statement) ts fun r => IsCopy u r.reading

theorem parses_pushStatement {s : Stmt} (h : ParsesAs rules s s.brace) (hts : ts.headD .endOfInput ≠ .word "else")
    (members : Members) :
    Parses (s.tokens ++ ts) (pushStatement rules members) ts
      fun r => ∃ v : Stmt, r.1 = .ok v :: members ∧ v.same s.brace = true := by
  refine .bind (h ts hts).collectLoose ?_
  rintro ⟨found, _⟩ ⟨⟨v, hv, hsame⟩, rfl⟩
  exact .pure ⟨v, congrArg (· :: members) hv, hsame⟩

/-- A loop that takes statements one by one takes all of a list, if it ends behind it and has rounds
enough. -/
theorem parses_members {σ : Type} (members : σ → Members) {us : List Token} {step : σ → Parser (σ × Bool)}
    (hss : ∀ s ∈ ss, s.Skeleton)
    (hstep : ∀ s ∈ ss, ∀ x (ts : List Token), ts.headD .endOfInput ≠ .word "else" →
      Parses (s.tokens ++ ts) (step x) ts
        fun r => r.2 = true ∧ ∃ v : Stmt, members r.1 = .ok v :: members x ∧ v.same s.brace = true)
    (hend : ∀ x, Parses us (step x) ts fun r => r.2 = false ∧ members r.1 = members x)
    (hus : us.headD .endOfInput ≠ .word "else") {m : Nat} (hm : ss.length < m) (x : σ) :
    Parses (ss.flatMap Tree.tokens ++ us) (loop step m x) ts
      fun r => ∃ vs, members r = (vs.map .ok).reverse ++ members x ∧
        List.Forall₂ (fun v u => v.same u = true) vs (ss.map Tree.brace) := by
  induction ss generalizing m x with
  | nil =>
    obtain ⟨m, rfl⟩ : ∃ k, m = k + 1 := ⟨m - 1, by omega⟩
    refine (hend x).bind ?_
    rintro ⟨r, _⟩ ⟨rfl, hr⟩
    exact .pure ⟨[], hr, .nil⟩
  | cons s ss ih =>
    obtain ⟨m, rfl⟩ : ∃ k, m = k + 1 := ⟨m - 1, by omega⟩
    rw [List.forall_mem_cons] at hss hstep
    rw [List.length_cons] at hm
    rw [List.flatMap_cons, List.append_assoc]
    have hnext := head_flatMap_tokens hss.2 (by simp [notFirst]) hus
    refine (hstep.1 x _ hnext).bind ?_
    rintro ⟨y, _⟩ ⟨rfl, v, hy, hv⟩
    refine (ih hss.2 hstep.2 (Nat.lt_of_succ_lt_succ hm) y).imp ?_
    rintro r ⟨vs, hr, hvs⟩
    exact ⟨v :: vs, by simp [hr, hy], .cons hv hvs⟩

/-- What a list of statements is read as, from its members. -/
theorem blockOfMembers_ok (vs : List Stmt) : blockOfMembers ((vs.map .ok).reverse ++ []) = .ok (.blockOf vs) := by
  rw [blockOfMembers, List.append_nil, List.reverse_reverse, readAll_ok]
  rfl

theorem parses_block (hss : ∀ s ∈ ss, s.Skeleton) (h : ∀ s ∈ ss, ParsesAs rules s s.brace) :
    Parses (.mark "\x7b" :: (ss.flatMap Tree.tokens ++ .mark "\x7d" :: ts)) (block rules) ts
      (IsCopy (.blockOf (ss.map Tree.brace))) := by
  refine .bind parses_mark fun _ _ => .via ts
    (fun members => ∃ vs, members = (vs.map .ok).reverse ++ [] ∧
      List.Forall₂ (fun v u => v.same u = true) vs (ss.map Tree.brace)) (.repeatFrom fun m hm => ?_) ?_
  · refine parses_members id hss (fun s hs members ts hts => ?_) (fun members => ?_) (by simp) ?_ []
    · refine .takeLead ?_
      refine .bind (absent_mark? (head_tokens (hss s hs) (by simp [notFirst]) ts)) ?_
      rintro _ rfl
      exact (parses_pushStatement (h s hs) hts members).bind fun r hr => .pure ⟨rfl, hr⟩
    · refine .takeLead ?_
      refine .bind parses_mark? ?_
      rintro _ rfl
      exact .pure ⟨rfl, rfl⟩
    · have hlength := length_le_tokens hss
      rw [List.length_append] at hm
      omega
  · rintro _ ⟨vs, rfl, hvs⟩
    exact .pure ⟨.blockOf vs, blockOfMembers_ok vs, same_blockOf hvs⟩

theorem parses_grammar_block {n : Nat} (hss : ∀ s ∈ ss, s.Skeleton)
    (h : ∀ s ∈ ss, ParsesAs (grammar n) s s.brace) :
    Parses (.mark "\x7b" :: (ss.flatMap Tree.tokens ++ .mark "\x7d" :: ts)) (grammar (n + 1) .block) ts
      (IsCopy (.blockOf (ss.map Tree.brace))) := parses_block hss h

theorem parses_bracedStatement {n : Nat} (hss : ∀ s ∈ ss, s.Skeleton)
    (h : ∀ s ∈ ss, ParsesAs (grammar (n + 6)) s s.brace) :
    Parses (.mark "\x7b" :: (ss.flatMap Tree.tokens ++ .mark "\x7d" :: ts)) (statement (grammar (n + 7))) ts
      fun r => IsCopy (.blockStmt (.blockOf (ss.map Tree.brace))) r.reading := by
  have hopens : (∃ us, ss.flatMap Tree.tokens ++ .mark "\x7d" :: ts = .mark "\x7b" :: us) ∨
      (∃ us, ss.flatMap Tree.tokens ++ .mark "\x7d" :: ts = .mark "\x7d" :: us) ∨
      Begins (ss.flatMap Tree.tokens ++ .mark "\x7d" :: ts) := by
    cases ss with
    | nil => exact .inr (.inl ⟨ts, rfl⟩)
    | cons s ss =>
      have hs := hss s List.mem_cons_self
      rw [List.flatMap_cons, List.append_assoc]
      cases s with
      | blockStmt inner => exact .inl ⟨_, rfl⟩
      | _ => exact .inr (.inr (begins_tokens hs (by simp) _))
  refine .peek ?_
  refine Refuses.orElse ?_ ?_
  · refine (absent_startsObject hopens).refuses ?_
    rintro _ rfl
    exact (refuses_require rfl).bind
  · refine .bind (parses_grammar_block hss h) fun r hr => .pure ?_
    obtain ⟨v, rfl, hv⟩ := hr
    exact ⟨_, rfl, Tree.same_iff.mpr ⟨rfl, .cons hv .nil⟩⟩

end

theorem parses_braced {n : Nat} {s : Stmt} (hs : s.Skeleton) (h : ParsesAs (grammar (n + 6)) s s.brace)
    {ts : List Token} :
    Parses (.mark "\x7b" :: (s.tokens ++ .mark "\x7d" :: ts)) (grammar (n + 8) .statement) ts
      fun r => IsCopy (.blockStmt (.blockOf [s.brace])) r.reading := by
  rw [← List.flatMap_singleton Tree.tokens s]
  exact parses_bracedStatement (List.forall_mem_singleton.mpr hs) (List.forall_mem_singleton.mpr h)

/-- In front of the tokens of a skeleton, a statement is parsed that is the braced skeleton. -/
theorem parses_skeleton {s : Stmt} (h : s.Skeleton) {n : Nat} (hn : 2 * s.tokens.length + 10 ≤ n)
    {ts : List Token} (helse : s.EndsOpen → ts.headD .endOfInput ≠ .word "else") :
    Parses (s.tokens ++ ts) (grammar n .statement) ts fun r => IsCopy s.brace r.reading := by
  induction h generalizing n ts with
  | exprStmt h =>
    simp only [Tree.tokens] at hn ⊢
    split
    · obtain ⟨n, rfl⟩ : ∃ k, n = k + 9 := ⟨n - 9, by omega⟩
      exact parses_parenthesized_statement h
    · obtain ⟨n, rfl⟩ : ∃ k, n = k + 5 := ⟨n - 5, by omega⟩
      exact parses_name_statement h
  | emptyStmt =>
    obtain ⟨n, rfl⟩ : ∃ k, n = k + 1 := ⟨n - 1, by omega⟩
    refine .peek ?_
    exact .bind (parses_advance (t := .mark ";") (by simp)) fun _ _ => .pure ⟨_, rfl, rfl⟩
  | @blockStmt ss h ih =>
    obtain ⟨n, rfl⟩ : ∃ k, n = k + 8 := ⟨n - 8, by omega⟩
    simp only [Tree.tokens, Tree.tokens_blockOf, List.length_cons, List.length_append, List.length_nil,
      List.cons_append, List.append_assoc, List.nil_append, Tree.brace, Tree.brace_blockOf] at hn ⊢
    refine parses_bracedStatement h fun s hs ts hts => ih s hs ?_ fun _ => hts
    have hle := length_tokens_le hs
    omega
  | @ifStmt text id consequent h hc ih =>
    obtain ⟨n, rfl⟩ : ∃ k, n = k + 5 := ⟨n - 5, by omega⟩
    simp only [Tree.tokens, Tree.testTokens, List.length_cons, List.cons_append, List.nil_append] at hn ⊢
    have hnext := helse .noElse
    exact parses_ifStatement h (ih (by omega) fun _ => hnext) hnext
  | @ifElse text id consequent alternate h hc ha ihc iha =>
    obtain ⟨n, rfl⟩ : ∃ k, n = k + 9 := ⟨n - 9, by omega⟩
    simp only [Tree.tokens, Tree.testTokens, List.length_cons, List.length_append, List.cons_append,
      List.nil_append, List.append_assoc, Tree.brace] at hn ⊢
    have hclosed : alternate.EndsOpen → ts.headD .endOfInput ≠ .word "else" :=
      fun hopen => helse (.elseBranch (.body hopen))
    have halternate := iha (n := n + 8) (by omega) hclosed
    by_cases hopen : (Tree.body consequent).EndsOpen
    · rw [if_pos hopen, List.length_cons, List.length_append] at hn
      rw [if_pos hopen, if_pos hopen, List.cons_append, List.append_assoc, List.singleton_append]
      refine parses_ifElse h (parses_braced hc fun us hus => ihc ?_ fun _ => hus) halternate
      omega
    · rw [if_neg hopen] at hn
      rw [if_neg hopen, if_neg hopen]
      exact parses_ifElse h (ihc (by omega) fun hclosing => absurd (.body hclosing) hopen) halternate
  | @whileStmt text id s h hs ih =>
    obtain ⟨n, rfl⟩ : ∃ k, n = k + 5 := ⟨n - 5, by omega⟩
    simp only [Tree.tokens, Tree.testTokens, List.length_cons, List.cons_append, List.nil_append] at hn ⊢
    exact parses_whileLoop h (ih (by omega) fun hopen => helse (.whileStmt (.body hopen)))
  | @doWhile text id s h hs ih =>
    obtain ⟨n, rfl⟩ : ∃ k, n = k + 5 := ⟨n - 5, by omega⟩
    simp only [Tree.tokens, Tree.testTokens, List.length_cons, List.length_append, List.cons_append,
      List.nil_append, List.append_assoc] at hn ⊢
    exact parses_doLoop h (ih (by omega) fun _ => by simp)
  | @forStmt s hs ih =>
    obtain ⟨n, rfl⟩ : ∃ k, n = k + 1 := ⟨n - 1, by omega⟩
    simp only [Tree.tokens, List.length_cons, List.cons_append] at hn ⊢
    exact parses_forever (ih (by omega) fun hopen => helse (.forStmt (.body hopen)))
  | @labeled label s h hs hinner ih =>
    obtain ⟨n, rfl⟩ : ∃ k, n = k + 1 := ⟨n - 1, by omega⟩
    simp only [Tree.tokens, List.length_cons, List.cons_append] at hn ⊢
    exact parses_labeledStatement h (ih (by omega) fun hopen => helse (.labeled (.body hopen)))

/-! ## Scripts -/

section

variable {rules : Rules} {ts : List Token} {ss : List Stmt}

/-- A source that starts with a token names no interpreter. -/
theorem refuses_interpreterLine (h : ts.headD .endOfInput ≠ .unknown) : Refuses ts interpreterLine := by
  intro s hs
  refine Option.eq_none_iff_forall_ne_some.mpr ?_
  rintro ⟨line, t⟩ hrun
  obtain ⟨text, rest, hhere, ⟨hmark, -⟩, -⟩ := interpreterLine_eq_some hrun
  obtain ⟨tail, htail⟩ := Option.isSome_iff_exists.mp hmark
  obtain rfl := after?_text htail
  have htoken := hs.token
  rw [hhere, hs.token_eq] at htoken
  exact h (congrArg Prod.fst htoken).symm

/-- A script of skeletons is parsed as the braced skeletons. -/
theorem parses_script (hss : ∀ s ∈ ss, s.Skeleton) (h : ∀ s ∈ ss, ParsesAs rules s s.brace) :
    Parses (ss.flatMap Tree.tokens) (script rules) [] fun r =>
      ∃ vs, r.reading = .ok (.blockOf vs) ∧
        List.Forall₂ (fun v u => v.same u = true) vs (ss.map Tree.brace) := by
  have hend (t : Token) (ht : Token.endOfInput ≠ t) : ([] : List Token).headD .endOfInput ≠ t := ht
  rw [← List.append_nil (ss.flatMap Tree.tokens)]
  have hline : Refuses (ss.flatMap Tree.tokens ++ []) interpreterLine :=
    refuses_interpreterLine (head_flatMap_tokens hss (by simp [notFirst]) (hend .unknown (by simp)))
  refine .takeLead ?_
  refine .bind hline.perhaps ?_
  rintro _ rfl
  refine .via [] (fun r => ∃ vs, r.1 = (vs.map .ok).reverse ++ [] ∧
    List.Forall₂ (fun v u => v.same u = true) vs (ss.map Tree.brace)) (.repeatFrom fun m hm => ?_) ?_
  · refine parses_members Prod.fst hss (fun s hs x ts hts => ?_) (fun x => ?_) (hend _ (by simp)) ?_ ([], none)
    · have hstarts := head_tokens (hss s hs) (t := .endOfInput) (by simp [notFirst]) ts
      refine .takeLead ?_
      refine .peek ?_
      rw [if_neg (hstarts ∘ eq_of_beq)]
      exact (parses_pushStatement (h s hs) hts x.1).bind fun r hr => .pure ⟨rfl, hr⟩
    · refine .takeLead ?_
      refine .peek ?_
      exact .pure ⟨rfl, rfl⟩
    · have hlength := length_le_tokens hss
      rw [List.append_nil] at hm
      omega
  · rintro ⟨_, last⟩ ⟨vs, rfl, hvs⟩
    exact .get fun _ _ => .pure ⟨vs, blockOfMembers_ok vs, hvs⟩

end

end Unminify.Grammar
