import Unminify.Grammar.Script
import Unminify.Proofs.Grammar.Parses
import Unminify.Proofs.Printer.Skeleton

/-!
# Names as phrases

A name in front of a mark that ends a phrase is parsed as an expression of its own (`parses_operand`,
`parses_grammar_expressions`), whatever else its word could begin: no operator, access, call or assignment
follows it, and neither does what would make `async`, `await` or the words of declarations anything but
names.
-/

namespace Unminify.Grammar

open Unminify.Grammar.Parser

variable {rules : Rules} {ctx : Context} {text : String} {t : Token} {ts us : List Token}

/-- Marks behind which no expression goes on. -/
inductive Token.Stops : Token → Prop
  | semicolon : Stops (.mark ";")
  | parenthesis : Stops (.mark ")")
  | colon : Stops (.mark ":")

theorem Token.Stops.ne_mark (h : t.Stops) (htext : text ∉ [";", ")", ":"]) : t ≠ .mark text := by
  rintro rfl
  cases h <;> exact htext (by decide)

theorem Token.Stops.ne_word (h : t.Stops) : t ≠ .word text := by
  cases h <;> nofun

/-- A reading that is a name standing for itself. -/
def IsName (text : String) (r : Reading Expr) : Prop := ∃ id, r = .ok (.identExpr (.ident text id))

/-! ## Operands -/

theorem parses_chain (ht : t.Stops) (calls : Bool) (o : Operand) :
    Parses (t :: ts) (chain rules ctx calls o) (t :: ts) fun r => r = o := by
  refine .once (.peek ?_)
  cases ht <;> exact .pure ⟨rfl, rfl⟩

theorem refuses_loneParameter (h : IsIdentifier text) (ht : t.Stops) :
    Refuses (.word text :: t :: ts) loneParameter := by
  refine (parses_identifier h.2.1).refuses fun _ _ => parses_atMark.refuses ?_
  rintro _ rfl
  refine (refuses_require ?_).bind
  cases ht <;> rfl

theorem parses_nameOrArrow (h : IsIdentifier text) (ht : t.Stops) :
    Parses (.word text :: t :: ts) (nameOrArrow rules ctx) (t :: ts) fun o => IsName text o.reading := by
  refine (refuses_loneParameter h ht).bind.orElse (.bind (parses_name h.2.1) ?_)
  rintro ⟨_, start⟩ rfl
  exact .pure ⟨_, rfl⟩

theorem refuses_parameters (ht : t.Stops) : Refuses (t :: ts) (parameters rules) :=
  .bind (refuses_mark (ht.ne_mark (by decide)))

/-- Neither a function nor a parameter follows `async`. -/
theorem parses_asyncOperand (h : IsIdentifier "async") (ht : t.Stops) :
    Parses (.word "async" :: t :: ts) (asyncOperand rules ctx) (t :: ts) fun o => IsName "async" o.reading := by
  refine Refuses.orElse ?_ (Refuses.orElse ?_ (parses_nameOrArrow h ht))
  · refine (Refuses.foresees ?_).refuses ?_
    · simp only [bind_assoc]
      refine parses_word.refuses fun _ _ => parses_atSemicolon.refuses fun _ _ => ?_
      exact .require (refuses_word ht.ne_word)
    · rintro _ rfl
      exact (refuses_require rfl).bind
  · simp only [bind_assoc]
    refine parses_word.refuses fun _ _ => parses_atSemicolon.refuses fun _ _ => Refuses.require ?_
    have hname : ∀ text, t = .word text → reserved.contains text = true := fun _ hword => absurd hword ht.ne_word
    exact .bind (.or (.bind (refuses_identifier hname)) (refuses_parameters ht))

/-- What a name in front of a stop is parsed as. -/
theorem parses_primary (h : IsIdentifier text) (ht : t.Stops) (new : Parser Operand) :
    Parses (.word text :: t :: ts) (primary rules ctx new) (t :: ts) fun o => IsName text o.reading := by
  refine .peek ?_
  dsimp only [List.headD_cons]
  split
  case h_8 heq =>
    cases heq
    exact parses_asyncOperand h ht
  case h_11 heq =>
    cases heq
    exact parses_nameOrArrow h ht
  -- the other forms start with a word that is no identifier, or with no word at all
  all_goals first
    | next heq => cases heq <;> exact absurd h (by decide)
    | next hword _ _ _ _ _ _ _ _ _ _ _ => exact (hword text rfl).elim

theorem unaryOp_ofText? (h : IsIdentifier text) : UnaryOp.ofText? text = none := by
  cases hop : UnaryOp.ofText? text with
  | none => rfl
  | some op =>
    obtain rfl := UnaryOp.text_of_ofText? hop
    cases op <;> exact absurd h (by decide)

theorem parses_operandOrAssignment {o : Operand → Prop} {P : Reading Expr → Prop}
    (ho : ∀ a, o a → P a.reading) (ht : t.Stops)
    (h : ∀ new, Parses us (primary rules ctx new) (t :: ts) o) :
    Parses us (operandOrAssignment rules ctx) (t :: ts) P := by
  refine .via (t :: ts) o (.get fun _ _ => (h _).bind ?_) ?_
  · intro a ha
    exact (parses_chain ht true a).imp fun _ hr => hr ▸ ha
  · intro a ha
    refine .peek ?_
    cases ht <;> exact .pure (ho a ha)

/-- A name is an operand, `await` as well if nothing to wait for follows. -/
theorem parses_operand (h : IsIdentifier text) (ht : t.Stops) :
    Parses (.word text :: t :: ts) (operand rules ctx) (t :: ts) (IsName text) := by
  have hname : Parses (.word text :: t :: ts) (operandOrAssignment rules ctx) (t :: ts) (IsName text) :=
    parses_operandOrAssignment (fun _ => id) ht fun new => parses_primary h ht new
  refine .peek ?_
  dsimp only [List.headD_cons]
  split
  case h_1 heq =>
    cases heq
    exact absurd h (by decide)
  case h_2 heq =>
    cases heq
    refine Refuses.orElse (parses_word.refuses fun _ _ => parses_atSemicolon.refuses fun _ _ => .require ?_) hname
    refine .peek ?_
    refine (refuses_require ?_).bind
    cases ht <;> rfl
  case h_3 heq =>
    cases heq
    rw [unaryOp_ofText? h]
    exact hname
  case h_4 heq => cases heq
  case h_5 hword _ => exact (hword text rfl).elim

/-! ## Expressions -/

theorem parses_operation (rules : Rules) {P : Reading Expr → Prop} {least : Nat} (ht : t.Stops)
    (h : Parses us (rules (.operand ctx)) (t :: ts) P) :
    Parses us (operation rules ctx least) (t :: ts) P := by
  refine h.bind fun left hleft => .once (.peek ?_)
  cases ht <;> exact .pure ⟨rfl, hleft⟩

theorem parses_expressions (rules : Rules) {P : Reading Expr → Prop} (ht : t.Stops)
    (h : Parses us (rules (.expression ctx)) (t :: ts) P) :
    Parses us (expressions rules ctx) (t :: ts) P := by
  refine h.bind fun first hfirst => .via (t :: ts) (fun more => more = []) (.once ?_) ?_
  · exact .bind (absent_mark? (ht.ne_mark (by decide))) (by rintro _ rfl; exact .pure ⟨rfl, rfl⟩)
  · rintro _ rfl
    exact .pure hfirst

section

variable {n : Nat} {P : Reading Expr → Prop}

/-- An operand in front of a stop is an expression. -/
theorem parses_grammar_expression (ht : t.Stops) (h : Parses us (operand (grammar n) ctx) (t :: ts) P) :
    Parses us (grammar (n + 3) (.expression ctx)) (t :: ts) P :=
  parses_operation (grammar (n + 1)) ht h

theorem parses_grammar_expressions (ht : t.Stops) (h : Parses us (operand (grammar n) ctx) (t :: ts) P) :
    Parses us (grammar (n + 4) (.expressions ctx)) (t :: ts) P :=
  parses_expressions (grammar (n + 3)) ht (parses_grammar_expression ht h)

/-- Where no operand can be parsed, there is no expression. -/
theorem refuses_grammar_expression (h : Refuses us (operand (grammar n) ctx)) :
    Refuses us (grammar (n + 3) (.expression ctx)) := h.bind

end

/-- A name in parentheses is an operand like the name itself. -/
theorem parses_operand_parenthesized {n : Nat} (h : IsIdentifier text) (ht : t.Stops) :
    Parses (.mark "(" :: .word text :: .mark ")" :: t :: ts) (operand (grammar (n + 4)) ctx) (t :: ts)
      (IsName text) := by
  refine .peek ?_
  refine parses_operandOrAssignment (fun _ => id) ht fun new => .peek ?_
  refine .orElse (.bind parses_mark fun _ _ => ?_)
  refine .bind (parses_grammar_expressions .parenthesis (parses_operand h .parenthesis)) fun e he => ?_
  refine .bind parses_mark fun _ _ => .bind parses_atMark ?_
  rintro _ rfl
  refine .bind (parses_require ?_) fun _ _ => .pure he
  cases ht <;> rfl

end Unminify.Grammar
