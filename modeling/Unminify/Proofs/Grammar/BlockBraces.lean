import Unminify.Proofs.Grammar.NamePhrases

/-!
# Braces that open blocks

A brace at the start of a statement opens an object literal where one can be read. In front of the
beginnings of statements (`Begins`) none can: a property would have to end in a comma or a brace, and
statements of control end in neither. Behind a name or a label only what could be a property, a
shorthand or a method up to there is parsed.
-/

namespace Unminify.Grammar

open Unminify.Grammar.Parser

variable {α : Type} {rules : Rules} {ctx : Context} {text w : String} {t : Token} {ts us : List Token}

/-- How the tokens of a skeleton that is no block begin. -/
inductive Begins : List Token → Prop
  | semicolon {ts : List Token} : Begins (.mark ";" :: ts)
  | keyword {w : String} {ts : List Token} (h : w ∈ ["if", "while", "do", "for"]) : Begins (.word w :: ts)
  | name {text : String} {ts : List Token} (h : IsIdentifier text) : Begins (.word text :: .mark ";" :: ts)
  | parenthesized {text : String} {ts : List Token} (h : IsIdentifier text) :
      Begins (.mark "(" :: .word text :: .mark ")" :: .mark ";" :: ts)
  | label {text : String} {ts : List Token} (h : IsIdentifier text) (hs : Begins ts) :
      Begins (.word text :: .mark ":" :: ts)

/-! ## Methods -/

/-- Marks that neither start a property key nor stand in front of one. -/
inductive Token.Keyless : Token → Prop
  | semicolon : Keyless (.mark ";")
  | colon : Keyless (.mark ":")
  | brace : Keyless (.mark "\x7b")
  | parenthesis : Keyless (.mark "(")

theorem Token.Keyless.ne_mark (ht : t.Keyless) (htext : text ∉ [";", ":", "\x7b", "("]) : t ≠ .mark text := by
  rintro rfl
  cases ht <;> exact htext (by decide)

theorem Token.Keyless.ne_word (ht : t.Keyless) : t ≠ .word text := by
  cases ht <;> nofun

/-- A parser takes at most a word, and no mark, of what it stands in front of. -/
structure TakesAtMost (w : String) (t : Token) (ts : List Token) (p : Parser Unit) : Prop where
  mark : Refuses (t :: ts) p ∨ Parses (t :: ts) p (t :: ts) fun _ => True
  word : Refuses (.word w :: t :: ts) p ∨ (Parses (.word w :: t :: ts) p (t :: ts) fun _ => True) ∨
    Parses (.word w :: t :: ts) p (.word w :: t :: ts) fun _ => True

namespace TakesAtMost

theorem nothing : TakesAtMost w t ts (pure ()) := ⟨.inr (.pure trivial), .inr (.inr (.pure trivial))⟩

theorem bind {p : Parser Unit} {f : Unit → Parser Unit} (h : TakesAtMost w t ts p)
    (hf : TakesAtMost w t ts (f ())) : TakesAtMost w t ts (p >>= f) where
  mark := by
    rcases h.mark with h | h
    · exact .inl h.bind
    · exact hf.mark.imp (fun hf => h.refuses fun _ _ => hf) fun hf => h.bind fun _ _ => hf
  word := by
    rcases h.word with h | h | h
    · exact .inl h.bind
    · exact hf.mark.imp (fun hf => h.refuses fun _ _ => hf) fun hf => .inl (h.bind fun _ _ => hf)
    · exact hf.word.imp (fun hf => h.refuses fun _ _ => hf)
        (.imp (fun hf => h.bind fun _ _ => hf) fun hf => h.bind fun _ _ => hf)

theorem when {c : Bool} {p : Parser Unit} {f : Unit → Parser Unit} (h : TakesAtMost w t ts p)
    (hf : TakesAtMost w t ts (f ())) : TakesAtMost w t ts (if c = true then p >>= f else f ()) := by
  cases c with
  | true => exact h.bind hf
  | false => exact hf

theorem aWord (ht : t.Keyless) (text : String) : TakesAtMost w t ts (Parser.word text) := by
  refine ⟨.inl (refuses_word ht.ne_word), ?_⟩
  by_cases hw : w = text
  · exact .inr (.inl (hw ▸ parses_word))
  · exact .inl (refuses_word (by simpa using hw))

theorem aMark (ht : t.Keyless) (htext : text ∉ [";", ":", "\x7b", "("]) :
    TakesAtMost w t ts (Parser.mark text) :=
  ⟨.inl (refuses_mark (ht.ne_mark htext)), .inl (refuses_mark nofun)⟩

/-- What fails behind a word and at it fails behind what takes it at most. -/
theorem refuses {p : Parser Unit} {q : Parser α} (h : TakesAtMost w t ts p) (hmark : Refuses (t :: ts) q) :
    Refuses (t :: ts) (p >>= fun _ => q) ∧
      (Refuses (.word w :: t :: ts) q → Refuses (.word w :: t :: ts) (p >>= fun _ => q)) := by
  refine ⟨?_, fun hword => ?_⟩
  · exact h.mark.elim .bind fun h => h.refuses fun _ _ => hmark
  · exact h.word.elim .bind fun h => h.elim (·.refuses fun _ _ => hmark) (·.refuses fun _ _ => hword)

end TakesAtMost

/-- A word is one modifier of a method at most. -/
theorem takesAtMost_parse (ht : t.Keyless) (m : Modifiers) : TakesAtMost w t ts (m.parse false) := by
  have hmodifier : ∀ text, TakesAtMost w t ts (do
      word text
      if false then require !(← atSemicolon false)) := fun text => .bind (.aWord ht text) .nothing
  simp only [Modifiers.parse]
  refine .when (hmodifier _) (.when (hmodifier _) ?_)
  split
  · split
    · exact .aWord ht _
    · exact hmodifier _
  · exact hmodifier _
  · split
    · exact .aMark ht (by decide)
    · exact .nothing

theorem absent_decorators (h : ts.headD .endOfInput ≠ .mark "@") :
    Parses ts (decorators rules) ts fun _ => True := by
  refine .once (.bind parses_atMark ?_)
  rintro _ rfl
  rw [if_neg (h ∘ eq_of_beq)]
  exact .pure ⟨rfl, trivial⟩

theorem refuses_propertyKey (ht : t.Keyless) : Refuses (t :: ts) (propertyKey rules) := by
  refine .peek ?_
  cases ht <;> exact refuses_failure

theorem parses_propertyKey : Parses (.word w :: ts) (propertyKey rules) ts fun _ => True := by
  refine .peek ?_
  exact .bind (parses_advance ⟨nofun, nofun⟩) fun _ _ => .pure trivial

/-- A method needs a key and parentheses behind it. -/
theorem refuses_method (ht : t.Keyless) :
    Refuses (t :: ts) (method rules false) ∧
      (t ≠ .mark "(" → Refuses (.word w :: t :: ts) (method rules false)) := by
  have hkey {m : Modifiers} : Refuses (t :: ts) (do
      let key ← propertyKey rules
      require (← atMark "(")
      return (m, key)) := .bind (refuses_propertyKey ht)
  refine ⟨?_, fun hne => ?_⟩
  · refine Parses.refuses (absent_decorators (ht.ne_mark (by decide))) fun _ _ => .bind ?_
    exact refuses_foldr_orElse fun m _ => ((takesAtMost_parse (w := w) ht m).refuses hkey).1
  · refine Parses.refuses (absent_decorators nofun) fun _ _ => .bind ?_
    refine refuses_foldr_orElse fun m _ => ((takesAtMost_parse ht m).refuses hkey).2 ?_
    refine parses_propertyKey.refuses fun _ _ => parses_atMark.refuses ?_
    rintro _ rfl
    exact (refuses_require (beq_eq_false_iff_ne.mpr hne)).bind

/-! ## Properties -/

section

variable {us : List Token} {p : Parser α} {close : String}

/-- No element can be parsed where no item can. -/
theorem refuses_elements (hclose : ts.headD .endOfInput ≠ .mark close) (hcomma : ts.headD .endOfInput ≠ .mark ",")
    (h : Refuses ts p) : Refuses ts (elements close p) := by
  refine .bind (.repeatFrom ((absent_mark? hclose).refuses ?_))
  rintro _ rfl
  refine (absent_mark? hcomma).refuses ?_
  rintro _ rfl
  exact h.bind

/-- An element must end in a comma or at the end of its list. -/
theorem refuses_elements_behind {P : α → Prop} (hclose : ts.headD .endOfInput ≠ .mark close)
    (hcomma : ts.headD .endOfInput ≠ .mark ",") (h : Parses ts p us P)
    (hclose' : us.headD .endOfInput ≠ .mark close) (hcomma' : us.headD .endOfInput ≠ .mark ",") :
    Refuses ts (elements close p) := by
  refine .bind (.repeatFrom ((absent_mark? hclose).refuses ?_))
  rintro _ rfl
  refine (absent_mark? hcomma).refuses ?_
  rintro _ rfl
  refine h.refuses fun _ _ => (absent_mark? hcomma').refuses ?_
  rintro _ rfl
  exact .bind (refuses_mark hclose')

end

theorem refuses_property (ht : t.Keyless) : Refuses (t :: ts) (property rules) := by
  refine .or (.bind (refuses_mark (ht.ne_mark (by decide)))) (.or (.bind (refuses_propertyKey ht)) (.or ?_ ?_))
  · exact .bind (refuses_method (w := "") ht).1
  · exact .bind (refuses_identifier fun _ hword => absurd hword ht.ne_word)

/-- A name in front of a mark is a shorthand, unless a value follows. -/
theorem parses_property (h : IsIdentifier text) (ht : t.Keyless) (hne : t ≠ .mark "(")
    (hpair : Refuses (t :: ts) (do
      mark ":"
      rules (.expression .enclosed))) :
    Parses (.word text :: t :: ts) (property rules) (t :: ts) fun _ => True := by
  refine Refuses.orElse (.bind (refuses_mark nofun)) (Refuses.orElse ?_ (Refuses.orElse ?_ ?_))
  · refine parses_propertyKey.refuses fun key _ => ?_
    have hpair' := Refuses.bind (f := fun value => pure (Tree.keyed <$> key <*> value, false)) hpair
    simpa only [bind_assoc] using hpair'
  · exact .bind ((refuses_method ht).2 hne)
  · exact .bind (parses_identifier h.2.1) fun _ _ => .pure trivial

/-! ## Values -/

theorem refuses_operandOrAssignment (h : ∀ new, Refuses us (primary rules ctx new)) :
    Refuses us (operandOrAssignment rules ctx) := .bind (.get fun _ _ => .bind (h _))

theorem refuses_operand_semicolon : Refuses (.mark ";" :: ts) (operand rules ctx) := by
  refine .peek ?_
  refine refuses_operandOrAssignment fun new => .peek ?_
  exact refuses_failure

theorem refuses_operand_keyword (h : w ∈ ["if", "while", "do", "for"]) :
    Refuses (.word w :: ts) (operand rules ctx) := by
  have hname : ∀ text, Token.word w = .word text → reserved.contains text = true := by
    rintro _ ⟨⟩
    revert w
    decide
  have hoperand : Refuses (.word w :: ts) (nameOrArrow rules ctx) :=
    .or (.bind (.bind (refuses_identifier hname))) (.bind (refuses_name hname))
  simp only [List.mem_cons, List.not_mem_nil, or_false] at h
  refine .peek ?_
  rcases h with rfl | rfl | rfl | rfl
  all_goals
    refine refuses_operandOrAssignment fun new => .peek ?_
    exact hoperand

/-- Behind a colon, the beginning of a statement is no value up to a comma or a brace. -/
theorem Begins.value {n : Nat} (h : Begins us) :
    Refuses us (grammar (n + 7) (.expression ctx)) ∨
      ∃ t ts, (t = .mark ";" ∨ t = .mark ":") ∧
        Parses us (grammar (n + 7) (.expression ctx)) (t :: ts) fun _ => True := by
  cases h with
  | semicolon => exact .inl (refuses_grammar_expression refuses_operand_semicolon)
  | keyword hw => exact .inl (refuses_grammar_expression (refuses_operand_keyword hw))
  | name h =>
    exact .inr ⟨_, _, .inl rfl, .imp (parses_grammar_expression .semicolon (parses_operand h .semicolon))
      fun _ _ => trivial⟩
  | parenthesized h =>
    exact .inr ⟨_, _, .inl rfl, .imp (parses_grammar_expression .semicolon
      (parses_operand_parenthesized h .semicolon)) fun _ _ => trivial⟩
  | label h _ =>
    exact .inr ⟨_, _, .inr rfl, .imp (parses_grammar_expression .colon (parses_operand h .colon))
      fun _ _ => trivial⟩

/-! ## Objects -/

/-- The beginning of a statement that starts with no keyword is no list of properties. -/
theorem Begins.refuses_members {n : Nat} (h : Begins us)
    (hkeyword : ∀ w ts, us = .word w :: ts → w ∉ ["if", "while", "do", "for"]) :
    Refuses us (elements "\x7d" (property (grammar (n + 7)))) := by
  cases h with
  | semicolon => exact refuses_elements (by simp) (by simp) (refuses_property .semicolon)
  | keyword hw => exact absurd hw (hkeyword _ _ rfl)
  | parenthesized h => exact refuses_elements (by simp) (by simp) (refuses_property .parenthesis)
  | name h =>
    have hpair {ts : List Token} : Refuses (.mark ";" :: ts) (do
        mark ":"
        grammar (n + 7) (.expression .enclosed)) := .bind (refuses_mark (by simp))
    exact refuses_elements_behind nofun nofun (parses_property h .semicolon (by decide) hpair) (by simp) (by simp)
  | @label text ts h hs =>
    rcases hs.value with hvalue | ⟨t, us, ht, hvalue⟩
    · have hpair := parses_property h .colon (by decide) (parses_mark.refuses fun _ _ => hvalue)
      exact refuses_elements_behind nofun nofun hpair (by simp) (by simp)
    · have hpair : Parses (.word text :: .mark ":" :: ts) (property (grammar (n + 7))) (t :: us) fun _ => True := by
        refine Refuses.orElse (.bind (refuses_mark nofun)) (Parses.orElse ?_)
        exact .bind parses_propertyKey fun _ _ => .bind parses_mark fun _ _ => hvalue.bind fun _ _ => .pure trivial
      rcases ht with rfl | rfl <;> exact refuses_elements_behind nofun nofun hpair (by simp) (by simp)

/-- A brace in front of another one or of the beginning of a statement opens no object literal. -/
theorem absent_startsObject {n : Nat}
    (h : (∃ ts, us = .mark "\x7b" :: ts) ∨ (∃ ts, us = .mark "\x7d" :: ts) ∨ Begins us) :
    Parses (.mark "\x7b" :: us) (startsObject (grammar (n + 7))) (.mark "\x7b" :: us)
      fun found => found = false := by
  refine Refuses.foresees ?_
  by_cases hkeyword : ∃ w ts, us = .word w :: ts ∧ w ∈ ["if", "while", "do", "for"]
  · obtain ⟨w, ts, rfl, hw⟩ := hkeyword
    have hstatement : statementWords.contains w = true := by
      clear h
      revert w
      decide
    refine Parses.refuses (.foresees (.bind parses_mark fun _ _ => parses_accept (a := ()) ⟨nofun, nofun⟩ ?_)) ?_
    · simp only [hstatement, if_true]
    · rintro _ rfl
      exact (refuses_require rfl).bind
  refine parses_foresees.refuses fun _ _ => .require ?_
  rcases h with ⟨ts, rfl⟩ | ⟨ts, rfl⟩ | h
  · exact .bind (parses_mark.refuses fun _ _ => refuses_elements (by simp) (by simp) (refuses_property .brace))
  · have hnone : Parses (.mark "\x7d" :: ts) (elements "\x7d" (property (grammar (n + 7)))) ts fun r => r = [] := by
      refine .via ts (fun r => r = []) (.once (.bind parses_mark? ?_)) ?_
      · rintro _ rfl
        exact .pure ⟨rfl, rfl⟩
      · rintro _ rfl
        exact .pure rfl
    refine Parses.refuses (.bind parses_mark fun _ _ => hnone) ?_
    rintro _ rfl
    exact refuses_failure
  · refine .bind (parses_mark.refuses fun _ _ => h.refuses_members ?_)
    rintro w ts rfl hw
    exact hkeyword ⟨w, ts, rfl, hw⟩

end Unminify.Grammar
