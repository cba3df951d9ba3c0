import Unminify.Proofs.Grammar.Elements
import Unminify.Proofs.Grammar.Reads
import Unminify.Proofs.Syntax.Sameness

/-!
# Arrays that are written and read

Array literals, and array patterns as binders or as targets, have their elements read by one loop and written
by one function. They differ in how an element is read and written, which is all that an `ElementForm` has: the
equations of this module (`arrayLiteral_eq`, `print_array` and so on) say that the three kinds of arrays are the
forms `literalElements`, `binderElements` and `targetElements`. So what `elements_survive` says of every form is
said of each of them (`arrayLiteral_print`, `arrayPattern_print`, `arrayPattern_print_asExpr`).
-/

namespace Unminify.Grammar

open Character Unminify.Grammar.Parser

/-! ## Array literals and array patterns -/

variable (rules : Rules) (level : Nat)

/-- The elements of array literals. -/
def literalElements : ElementForm Expr where
  item := argument rules
  reading := id
  write e := Printer.atLeast Strength.assignment e (e.print level)

/-- The elements of array patterns, as binders. -/
def binderElements : ElementForm (Tree .binder) where
  item := patternWithDefault rules
  reading := Target.asBinder
  write b := b.print level

/-- The elements of array patterns, as targets of assignments. -/
def targetElements : ElementForm Expr where
  item := patternWithDefault rules
  reading := Target.asExpr
  write e := Printer.atLeast Strength.assignment e (e.print level)

/-- The list phrase of elements. -/
def elementList {c : Category} (as : List (Option (Tree c))) : Tree (.list (.option c)) :=
  .ofList (as.map .ofOption)

theorem print_elementList {c : Category} (as : List (Option (Tree c))) :
    (elementList as).print = as.map fun a => a.map Tree.print := by
  induction as with
  | nil => rfl
  | cons a as ih => cases a <;> exact congrArg (_ :: ·) ih

theorem toList_elementList {c : Category} (as : List (Option (Tree c))) :
    (elementList as).toList = as.map .ofOption := Tree.toList_ofList _

theorem arrayLiteral_eq :
    arrayLiteral rules =
      (fun r => (fun as => Tree.array (elementList as)) <$> r) <$> (literalElements rules level).read := by
  have hid (found : List (Option (Reading Expr))) : found.map (fun x => x.map id) = found := by simp
  simp only [arrayLiteral, ElementForm.read, literalElements, hid, map_bind, map_pure]
  rfl

theorem asBinder_arrayPattern_eq :
    Target.asBinder <$> arrayPattern rules =
      (fun r => (fun as => Tree.arrayBinder (elementList as)) <$> r) <$> (binderElements rules level).read := by
  simp only [arrayPattern, ElementForm.read, binderElements, map_bind, map_pure]
  rfl

theorem asExpr_arrayPattern_eq :
    Target.asExpr <$> arrayPattern rules =
      (fun r => (fun as => Tree.array (elementList as)) <$> r) <$> (targetElements rules level).read := by
  simp only [arrayPattern, ElementForm.read, targetElements, map_bind, map_pure]
  rfl

theorem print_array (as : List (Option Expr)) :
    (Tree.array (elementList as)).print level = (literalElements rules level).text as := by
  refine congrArg (fun texts => "[" ++ Printer.elements texts ++ "]") ?_
  rw [toList_elementList, print_elementList, List.zip_map', List.map_map]
  refine List.map_congr_left fun a _ => ?_
  cases a <;> rfl

theorem print_arrayBinder (as : List (Option (Tree .binder))) :
    (Tree.arrayBinder (elementList as)).print level = (binderElements rules level).text as := by
  refine congrArg (fun texts => "[" ++ Printer.elements texts ++ "]") ?_
  rw [print_elementList, List.map_map]
  refine List.map_congr_left fun a _ => ?_
  cases a <;> rfl

section

variable {rules level} {c : Category}

theorem same_elementList {as as' : List (Option (Tree c))}
    (h : List.Forall₂ (Option.Rel fun a b => a.same b = true) as as') :
    (elementList as).same (elementList as') = true := by
  induction h with
  | nil => rfl
  | cons hx _ ih =>
    refine Tree.same_iff.mpr ⟨rfl, .cons ?_ (.cons ih .nil)⟩
    cases hx with
    | none => rfl
    | some ha => exact Tree.same_iff.mpr ⟨rfl, .cons ha .nil⟩

theorem same_array {as as' : List (Option Expr)}
    (h : List.Forall₂ (Option.Rel fun a b => a.same b = true) as as') :
    (Tree.array (elementList as)).same (.array (elementList as')) = true :=
  Tree.same_iff.mpr ⟨rfl, .cons (same_elementList h) .nil⟩

theorem same_arrayBinder {as as' : List (Option (Tree .binder))}
    (h : List.Forall₂ (Option.Rel fun a b => a.same b = true) as as') :
    (Tree.arrayBinder (elementList as)).same (.arrayBinder (elementList as')) = true :=
  Tree.same_iff.mpr ⟨rfl, .cons (same_elementList h) .nil⟩

/-- The text of an array literal is read back, if those of its elements are. -/
theorem arrayLiteral_print {as : List (Option Expr)} {rest : List Char} {s : State}
    (h : ∀ a, some a ∈ as → (literalElements rules level).Recovers (fun a b => a.same b = true) a)
    (hs : s.next.Faces (((Tree.array (elementList as)).print level).toList ++ rest)) :
    ∃ e s', arrayLiteral rules s = some (.ok e, s') ∧ (Tree.array (elementList as)).same e = true ∧
      s'.next.Faces rest := by
  rw [print_array rules] at hs
  obtain ⟨as', s', hread, has, hs'⟩ := ElementForm.readsBack h rest s hs
  refine ⟨.array (elementList as'), s', ?_, same_array has, hs'⟩
  rw [arrayLiteral_eq rules level, map_eq_pure_bind, bind_of_some hread]
  rfl

/-- So is that of an array pattern, as a binder. -/
theorem arrayPattern_print {as : List (Option (Tree .binder))} {rest : List Char} {s : State}
    (h : ∀ a, some a ∈ as → (binderElements rules level).Recovers (fun a b => a.same b = true) a)
    (hs : s.next.Faces (((Tree.arrayBinder (elementList as)).print level).toList ++ rest)) :
    ∃ t p s', arrayPattern rules s = some (t, s') ∧ t.asBinder = .ok p ∧
      (Tree.arrayBinder (elementList as)).same p = true ∧ s'.next.Faces rest := by
  rw [print_arrayBinder rules] at hs
  obtain ⟨as', s', hread, has, hs'⟩ := ElementForm.readsBack h rest s hs
  have hbinder : (Target.asBinder <$> arrayPattern rules) s = some (.ok (.arrayBinder (elementList as')), s') := by
    rw [asBinder_arrayPattern_eq rules level, map_eq_pure_bind, bind_of_some hread]
    rfl
  obtain ⟨t, hpattern, ht⟩ := map_eq_some hbinder
  exact ⟨t, _, s', hpattern, ht.symm, same_arrayBinder has, hs'⟩

/-- And as the target of an assignment, where it is written like a literal. -/
theorem arrayPattern_print_asExpr {as : List (Option Expr)} {rest : List Char} {s : State}
    (h : ∀ a, some a ∈ as → (targetElements rules level).Recovers (fun a b => a.same b = true) a)
    (hs : s.next.Faces (((Tree.array (elementList as)).print level).toList ++ rest)) :
    ∃ t e s', arrayPattern rules s = some (t, s') ∧ t.asExpr = .ok e ∧
      (Tree.array (elementList as)).same e = true ∧ s'.next.Faces rest := by
  rw [print_array rules] at hs
  obtain ⟨as', s', hread, has, hs'⟩ := ElementForm.readsBack h rest s hs
  have hexpr : (Target.asExpr <$> arrayPattern rules) s = some (.ok (.array (elementList as')), s') := by
    rw [asExpr_arrayPattern_eq rules level, map_eq_pure_bind, bind_of_some hread]
    rfl
  obtain ⟨t, hpattern, ht⟩ := map_eq_some hexpr
  exact ⟨t, _, s', hpattern, ht.symm, same_array has, hs'⟩

end

/-! ## Words as elements -/

/-- Words that are expressions of their own. -/
def plainWords : List (String × Expr) :=
  [("this", .this), ("null", .literal .null), ("true", .literal (.bool true)), ("false", .literal (.bool false))]

section

variable {rules : Rules} {ctx : Context} {level n : Nat} {s t : State} {word text : String} {e : Expr}

theorem primary_plainWord (hw : (word, e) ∈ plainWords) (hs : s.next.token = .word word) (new : Parser Operand) :
    primary rules ctx new s = some ({ reading := .ok e }, s.resumed s.next.stop s.next.rest) := by
  obtain ⟨⟨gap, token, start, stop, here, rest⟩, last, loose, passed⟩ := s
  cases hs
  simp only [plainWords, List.mem_cons, Prod.mk.injEq, List.not_mem_nil, or_false] at hw
  rcases hw with ⟨rfl, rfl⟩ | ⟨rfl, rfl⟩ | ⟨rfl, rfl⟩ | ⟨rfl, rfl⟩ <;> rfl

/-- Nothing of an operand goes on at a comma or a closing bracket. -/
theorem chain_stop (ht : t.next.token = .mark "," ∨ t.next.token = .mark "]") (o : Operand) :
    chain rules ctx true o t = some (o, t) := by
  obtain ⟨⟨gap, token, start, stop, here, rest⟩, last, loose, passed⟩ := t
  rcases ht with ht | ht <;> cases ht <;> rfl

theorem peek_eq (s : State) : peek s = some (s.next.token, s) := rfl

/-- A word that is an expression of its own is an element by itself. -/
theorem argument_plainWord (hw : (word, e) ∈ plainWords) (hs : s.next.token = .word word)
    (ht : (s.resumed s.next.stop s.next.rest).next.token = .mark "," ∨
      (s.resumed s.next.stop s.next.rest).next.token = .mark "]") :
    argument (grammar (n + 3)) s = some (.ok e, s.resumed s.next.stop s.next.rest) := by
  have hwhole : wholeOperand (grammar n) .enclosed s =
      some ({ reading := .ok e }, s.resumed s.next.stop s.next.rest) := by
    rw [wholeOperand, bind_of_some (rfl : (get : Parser State) s = some (s, s)),
      bind_of_some (primary_plainWord hw hs _), chain_stop ht]
  generalize s.resumed s.next.stop s.next.rest = t at ht hwhole
  have hassign : operandOrAssignment (grammar n) .enclosed s = some (.ok e, t) := by
    rw [operandOrAssignment, bind_of_some hwhole, bind_of_some (peek_eq t)]
    rcases ht with ht | ht <;> rw [ht] <;> rfl
  have hoperand : operand (grammar n) .enclosed s = some (.ok e, t) := by
    rw [operand, bind_of_some (peek_eq s), hs]
    simp only [plainWords, List.mem_cons, Prod.mk.injEq, List.not_mem_nil, or_false] at hw
    rcases hw with ⟨rfl, rfl⟩ | ⟨rfl, rfl⟩ | ⟨rfl, rfl⟩ | ⟨rfl, rfl⟩ <;> exact hassign
  have hoperation : operation (grammar (n + 1)) .enclosed 0 s = some (.ok e, t) := by
    rw [operation, bind_of_some (show grammar (n + 1) (.operand .enclosed) s = _ from hoperand)]
    rw [repeatFrom, bind_of_some (rfl : (get : Parser State) t = some (t, t))]
    refine loop_done ?_
    rw [bind_of_some (peek_eq t)]
    rcases ht with ht | ht <;> rw [ht] <;> rfl
  rw [argument, bind_of_some (mark?_of_ne (by rw [hs]; nofun)), if_neg nofun]
  exact hoperation

/-- A word that is an expression of its own is read back. -/
theorem recovers_plainWord (hw : (word, e) ∈ plainWords) :
    (literalElements (grammar (n + 3)) level).Recovers (· = ·) e := by
  intro stop hstop rest
  have hstarts : ∃ text, StartsWith text (stop :: rest) rest ∧ (text = "," ∨ text = "]") := by
    rcases hstop with rfl | rfl
    · exact ⟨_, startsWith_comma rest, .inl rfl⟩
    · exact ⟨_, startsWith_closing rest, .inr rfl⟩
  have hwrite : (literalElements (grammar (n + 3)) level).write e = word := by
    simp only [plainWords, List.mem_cons, Prod.mk.injEq, List.not_mem_nil, or_false] at hw
    rcases hw with ⟨rfl, rfl⟩ | ⟨rfl, rfl⟩ | ⟨rfl, rfl⟩ | ⟨rfl, rfl⟩ <;> rfl
  have hnext (p : Nat) : (Lexeme.next p (word.toList ++ stop :: rest)).token = .word word ∧
      (Lexeme.next p (word.toList ++ stop :: rest)).here = word.toList ++ stop :: rest ∧
      (Lexeme.next p (word.toList ++ stop :: rest)).rest = stop :: rest := by
    have hbreaks : Breaks (stop :: rest) := by
      intro c hc
      obtain rfl := Option.some.inj hc
      rcases hstop with rfl | rfl <;> decide
    have hname : nameAt? word.toList = some (word.toList, []) ∧
        ∃ c cs, word.toList = c :: cs ∧ isBlank c = false ∧ c ≠ '/' := by
      simp only [plainWords, List.mem_cons, Prod.mk.injEq, List.not_mem_nil, or_false] at hw
      rcases hw with ⟨rfl, -⟩ | ⟨rfl, -⟩ | ⟨rfl, -⟩ | ⟨rfl, -⟩ <;>
        exact ⟨by decide, _, _, rfl, by decide, by decide⟩
    obtain ⟨hname, c, cs, hword, hblank, hslash⟩ := hname
    have htoken := tokenAt_of_nameAt? (nameAt?_append hname hbreaks)
    rw [String.ofList_toList] at htoken
    rw [hword, List.cons_append] at htoken ⊢
    exact Lexeme.next_of_tokenAt hblank hslash htoken p
  rw [hwrite]
  obtain ⟨text, htext, hmark⟩ := hstarts
  refine ⟨fun p => ?_, fun p => ?_, fun s hs => ?_⟩
  · rw [(hnext p).1]
    exact ⟨nofun, nofun⟩
  · rw [(hnext p).2.1, List.length_append]
    exact Nat.le_add_left _ _
  · obtain ⟨p, htoken, -, hrest⟩ := hs
    rw [(hnext p).1] at htoken
    rw [(hnext p).2.2] at hrest
    have ht : (s.resumed s.next.stop s.next.rest).next.Faces (stop :: rest) := hrest ▸ Lexeme.faces_next _ _
    have hstop' := (ht.mark htext).1
    refine ⟨_, _, argument_plainWord hw htoken ?_, ht, e, rfl, rfl⟩
    rcases hmark with rfl | rfl
    · exact .inl hstop'
    · exact .inr hstop'

end

/-! ## Both directions -/

namespace ElementForm

variable {α β : Type}

/-- Lists of elements survive in both directions. What is written for a list splits into elements and commas
whose slots are the list, and is read back as it, if the text of each of its elements is read back. And what
is read of separated elements and commas between brackets are their slots; written and read again, they
stay the same. -/
theorem elements_survive (F : ElementForm α) (same : α → α → Prop) :
    (∀ as, (∀ a, some a ∈ as → F.Recovers same a) →
      (∃ es, slots none es = as ∧ ∀ rest, F.Bracketed same ((F.text as).toList ++ rest) es rest) ∧
        F.ReadsBack same as) ∧
    ∀ R : β → α → Prop, (∀ b a, R b a → F.Recovers same a) →
      ∀ es cs rest, Separated es → F.Bracketed R cs es rest → ∀ s : State, s.next.Faces cs →
        ∃ as s', F.read s = some (.ok as, s') ∧ List.Forall₂ (Option.Rel R) (slots none es) as ∧
          s'.next.Faces rest ∧ F.ReadsBack same as := by
  refine ⟨fun as h => ⟨⟨entries as, slots_entries as, bracketed_text h⟩, readsBack h⟩, ?_⟩
  intro R hR es cs rest hes hcs s hs
  obtain ⟨as, s', hread, has, hs'⟩ := hcs.read hes hs
  exact ⟨as, s', hread, has, hs', readsBack fun a ha => (exists_rel_of_mem has ha).elim fun b hb => hR b a hb⟩

/-- A list with absent elements at both ends, and a source with a comment between two commas. -/
theorem elements_survive_plainWords :
    let F := literalElements (grammar 3) 0
    let source := '[' :: ',' :: ("this".toList ++ ',' :: ("/* absent */".toList ++ ',' ::
      ("null".toList ++ [',', ']', ';'])))
    let s : State := { next := Lexeme.next 0 source, last := 0, loose := [] }
    F.text [none, some .this, none] = "[, this, ,]" ∧ F.ReadsBack (· = ·) [none, some .this, none] ∧
      ∃ s', F.read s = some (.ok [none, some .this, none, some (.literal .null)], s') ∧ s'.next.Faces [';'] ∧
        F.ReadsBack (· = ·) [none, some .this, none, some (.literal .null)] := by
  intro F source s
  have hplain (w : String) (e : Expr) (h : (w, e) ∈ plainWords) : F.Recovers (· = ·) e := recovers_plainWord h
  have hthis := hplain "this" .this (by simp [plainWords])
  have hnull := hplain "null" (.literal .null) (by simp [plainWords])
  let R : Expr → Expr → Prop := fun b a => b = a ∧ (a = .this ∨ a = .literal .null)
  have hR : ∀ b a, R b a → F.Recovers (· = ·) a := by
    rintro b a ⟨-, rfl | rfl⟩
    · exact hthis
    · exact hnull
  let es : List (Option Expr) := [none, some .this, none, none, some (.literal .null), none]
  have hes : Separated es := by simp [Separated, es]
  have hend : F.Splits R [',', ']', ';'] [none] [';'] := .comma (startsWith_comma _) (.closing (startsWith_closing _))
  have hmiddle : F.Splits R ("null".toList ++ [',', ']', ';']) [some (.literal .null), none] [';'] :=
    .element ((hnull ',' (.inl rfl) _).imp fun _ h => ⟨h, .inr h.symm⟩) hend
  have hfront : F.Splits R ("this".toList ++ ',' :: ("/* absent */".toList ++ ',' :: ("null".toList ++ [',', ']', ';'])))
      [some .this, none, none, some (.literal .null), none] [';'] :=
    .element ((hthis ',' (.inl rfl) _).imp fun _ h => ⟨h, .inl h.symm⟩)
      (.comma (startsWith_comma _) (.comma (fun _ => ⟨rfl, rfl⟩) hmiddle))
  have hbracketed : F.Bracketed R source es [';'] :=
    ⟨_, startsWith_opening _, .comma (startsWith_comma _) hfront⟩
  obtain ⟨as, s', hread, has, hs', hback⟩ :=
    (elements_survive F (· = ·)).2 R hR es source [';'] hes hbracketed s (Lexeme.faces_next 0 source)
  obtain rfl : slots none es = as := by
    have heq : List.Forall₂ Eq (slots none es) as := has.imp fun x y h => by
      cases h with
      | none => rfl
      | some h => exact congrArg some h.1
    rwa [List.forall₂_eq_eq_eq] at heq
  refine ⟨rfl, ((elements_survive (β := Expr) F (· = ·)).1 _ ?_).2, s', hread, hs', hback⟩
  rintro a ha
  obtain rfl : a = .this := by simpa using ha
  exact hthis

end ElementForm

end Unminify.Grammar
